/-
The command is the pipeline of the library, and it fails without side effects. A request infers a schema
(`Infers`) or fails at one of its stages (`Fails`), and the first stage that fails is the one that is
reported; where none does, the view of what the texts show is delivered (`run_pipeline`).
-/
import SchemaInference.Proofs.Command.Stages
import SchemaInference.Proofs.View.Layout

namespace SchemaInference.Command

open Schema Traced Workspace

/-! ## Ways to end -/

/-- The request loads and expands everything and reads all sources, and the texts have the schema
`s`. -/
inductive Infers (given : Expansion) (w : Workspace) (r : Request) (sources : List Source)
    (s : Inferred) : Prop
  | intro {c : Settings} {texts : List String} (hc : Loads w r (.ok c))
      (hs : Collects given r.inputs sources) (ht : Reads w sources texts)
      (h : (inferTexts c texts).outcome = .ok s) : Infers given w r sources s

/-- The first failure that a request meets: in its settings, then in its inputs, and then in the
sources one after the other, each of them read and observed before the next. The list has the sources
that it has turned to by then. -/
inductive Fails (given : Expansion) (w : Workspace) (r : Request) : List Source → Failure → Prop
  | settings {f : Failure} (h : Loads w r (.error f)) : Fails given w r [] f
  | input {c : Settings} {before after : List String} {input : String} {sources : List Source}
      {f : Failure} (hc : Loads w r (.ok c)) (e : r.inputs = before ++ input :: after)
      (hb : Collects given before sources) (h : Expands given input (.error f)) :
      Fails given w r [] f
  | unread {c : Settings} {before after : List Source} {source : Source} {texts : List String}
      {s : Inferred} {f : FileFault} (hc : Loads w r (.ok c))
      (hs : Collects given r.inputs (before ++ source :: after)) (ht : Reads w before texts)
      (hb : (inferTexts c texts).outcome = .ok s)
      (h : content w (left w.input before) source = .error f) :
      Fails given w r (before ++ [source]) (.sourceUnread source f)
  | refused {c : Settings} {before after : List Source} {source : Source} {texts : List String}
      {text : String} {s : Inferred} {e : Refusal} (hc : Loads w r (.ok c))
      (hs : Collects given r.inputs (before ++ source :: after)) (ht : Reads w before texts)
      (hb : (inferTexts c texts).outcome = .ok s)
      (hx : content w (left w.input before) source = .ok text)
      (h : (inferTexts c (texts ++ [text])).outcome = .error e) :
      Fails given w r (before ++ [source]) (.refused source e)

variable {given : Expansion} {w w' : Workspace} {r : Request} {c : Settings}

/-! ## The command -/

/-- What is left of a command once its sources are known: the view of what is inferred is delivered, or
the failure is reported. -/
theorem run_of_collects {sources : List Source} {t : Traced Failure Inferred}
    (hn : r.noOp = false) (hc : Loads w r (.ok c)) (hs : Collects given r.inputs sources)
    (ht : inferSources (host given) c sources w = (t, w')) :
    run (host given) r w =
      (match t.outcome with
        | .error f => (pure (Report.failed (.settled :: t.events) f) : StateM Workspace Report)
        | .ok s => do
          match ← deliver (host given) r.output ((View.render r.hideNullOnly s).pretty 0) with
          | .error f => return Report.failed (.settled :: t.events) f
          | .ok output => return ⟨output, .settled :: t.events, none⟩) w' := by
  unfold run
  simp only [hn, Bool.false_eq_true, if_false]
  rw [bind_of_eq (loadSettings_of_loads hc)]
  dsimp only
  rw [bind_of_eq (allSources_of_collects hs)]
  exact bind_of_eq ht

/-- A failure is what is reported, and nothing is printed or changed. -/
theorem run_of_fails {read : List Source} {f : Failure} (hn : r.noOp = false)
    (h : Fails given w r read f) : ∃ events, run (host given) r w =
      (.failed events f, { w with input := left w.input read }) := by
  cases h with
  | settings h =>
    refine ⟨[], ?_⟩
    unfold run
    simp only [hn, Bool.false_eq_true, if_false]
    rw [bind_of_eq (loadSettings_of_loads h)]
    rfl
  | input hc e hb h =>
    refine ⟨[.settled], ?_⟩
    unfold run
    simp only [hn, Bool.false_eq_true, if_false]
    rw [bind_of_eq (loadSettings_of_loads hc)]
    dsimp only
    rw [e, bind_of_eq (allSources_of_fails hb h _)]
    rfl
  | @unread c before after source texts s f hc hs ht hb h =>
    obtain ⟨events, e⟩ := inferSources_error given after ht hb
      (f := .sourceUnread source f) fun run _ => by rw [h]; rfl
    rw [run_of_collects hn hc hs e]
    exact ⟨_, rfl⟩
  | @refused c before after source texts text s e hc hs ht hb hx h =>
    have hfault : ∀ run, (texts.foldlM Run.observeText (Run.start c)).value? = some run →
        (observeSource run source (content w (left w.input before) source)).outcome =
          .error (.refused source e) := fun run hr => by
      rw [hx, ← fault?_eq_some]
      refine fault?_bind.2 (.inr ⟨(), rfl, ?_⟩)
      rw [fault?_mapFault, fault?_observeText hr h]
      rfl
    obtain ⟨events, e⟩ := inferSources_error given after ht hb hfault
    rw [run_of_collects hn hc hs e]
    exact ⟨_, rfl⟩

/-- Where all goes well, the view is delivered. -/
theorem run_of_infers {sources : List Source} {s : Inferred} (hn : r.noOp = false)
    (h : Infers given w r sources s) :
    Delivers { w with input := left w.input sources } r (View.render r.hideNullOnly s).printed
      (run (host given) r w).1 (run (host given) r w).2 := by
  cases h with
  | @intro c texts hc hs ht hb =>
    obtain ⟨events, e⟩ := inferSources_ok given ht hb
    rw [run_of_collects hn hc hs e]
    dsimp only
    rw [Tree.pretty_eq_printed]
    rcases ho : r.output with _ | path
    · exact .printed ho
    rcases deliver_cases { w with input := left w.input sources } path
        (View.render r.hideNullOnly s).printed with ⟨w', e, hw⟩ | ⟨w', f, e, hf⟩
    · rw [bind_of_eq e]
      exact .written ho hw
    · rw [bind_of_eq e]
      exact .refused ho hf

/-! ### Which way it ends -/

theorem exists_loads (w : Workspace) (r : Request) : ∃ e, Loads w r e := by
  rcases h : r.settingsFile with _ | path
  · exact ⟨_, .default h⟩
  rcases hread : w.readFile path with f | text
  · exact ⟨_, .unread h hread⟩
  rcases hc : Settings.ofText? text with _ | c
  · exact ⟨_, .rejected h hread hc⟩
  · exact ⟨_, .file h hread hc⟩

/-- Entries are all paths, or there is a first fault among them. -/
theorem paths_or_fault (entries : Entries) :
    (∃ paths : List String, entries = paths.map .ok) ∨
      ∃ (before : List String) (f : FileFault) (after : Entries),
        entries = before.map .ok ++ .error f :: after := by
  induction entries with
  | nil => exact .inl ⟨[], rfl⟩
  | cons e entries ih =>
    rcases e with f | path
    · exact .inr ⟨[], f, entries, rfl⟩
    rcases ih with ⟨paths, rfl⟩ | ⟨before, f, after, rfl⟩
    · exact .inl ⟨path :: paths, rfl⟩
    · exact .inr ⟨path :: before, f, after, rfl⟩

theorem exists_expands (given : Expansion) (input : String) : ∃ e, Expands given input e := by
  by_cases hne : input = "-"
  · subst hne
    exact ⟨_, .input⟩
  by_cases h : IsPattern input
  · rcases hg : given input with _ | entries
    · exact ⟨_, .invalid h hg⟩
    rcases paths_or_fault entries with ⟨paths, rfl⟩ | ⟨before, f, after, rfl⟩
    · cases paths with
      | nil => exact ⟨_, .unmatched h hg⟩
      | cons path paths => exact ⟨_, .paths h hg⟩
    · exact ⟨_, .unexpanded h hg⟩
  · exact ⟨_, .file hne h⟩

/-- All inputs stand for sources, or there is a first one that does not. -/
theorem collects_or_fails (given : Expansion) (inputs : List String) :
    (∃ sources, Collects given inputs sources) ∨
    ∃ before input after sources f, inputs = before ++ input :: after ∧
      Collects given before sources ∧ Expands given input (.error f) := by
  induction inputs with
  | nil => exact .inl ⟨[], [], .nil, rfl⟩
  | cons input inputs ih =>
    obtain ⟨e, he⟩ := exists_expands given input
    rcases e with f | part
    · exact .inr ⟨[], input, inputs, [], f, rfl, ⟨[], .nil, rfl⟩, he⟩
    rcases ih with ⟨_, parts, hall, rfl⟩ | ⟨before, other, after, _, f, rfl, ⟨parts, hall, -⟩, hf⟩
    · exact .inl ⟨_, part :: parts, .cons he hall, rfl⟩
    · exact .inr ⟨input :: before, other, after, _, f, rfl, ⟨part :: parts, .cons he hall, rfl⟩, hf⟩

/-- Where the sources up to some point can be observed, all of them can be, or there is a first one
after it that cannot. -/
theorem infers_or_fails {before after : List Source} {texts : List String} {s : Inferred}
    (hc : Loads w r (.ok c)) (hs : Collects given r.inputs (before ++ after))
    (ht : Reads w before texts) (hb : (inferTexts c texts).outcome = .ok s) :
    (∃ sources s, Infers given w r sources s) ∨ ∃ read f, Fails given w r read f := by
  induction after generalizing before texts s with
  | nil =>
    rw [List.append_nil] at hs
    exact .inl ⟨before, s, .intro hc hs ht hb⟩
  | cons source after ih =>
    rcases hx : content w (left w.input before) source with f | text
    · exact .inr ⟨_, _, .unread hc hs ht hb hx⟩
    rcases hs' : (inferTexts c (texts ++ [text])).outcome with e | s'
    · exact .inr ⟨_, _, .refused hc hs ht hb hx hs'⟩
    have hread : Reads w (before ++ [source]) (texts ++ [text]) := by
      unfold Reads
      rw [contents_append, ht, contents, contents, hx, List.map_append]
      rfl
    rw [← List.singleton_append, ← List.append_assoc] at hs
    exact ih hs hread hs'

/-- Every request but one for no operation infers a schema, or it fails. Where it fails, it reports the
first failure in the order of its stages, prints nothing and changes no file or directory; no more is
read of the standard input than the sources up to the failure take. Where it infers a schema, just the
view of it is delivered: printed as a line, or put into the file that is asked for with nothing printed
and no other file changed, unless the workspace refuses to take it there. -/
theorem run_pipeline (given : Expansion) (w : Workspace) (r : Request) (hn : r.noOp = false) :
    ((∃ sources s, Infers given w r sources s) ∨ ∃ read f, Fails given w r read f) ∧
    (∀ read f, Fails given w r read f →
      (run (host given) r w).1.failure = some f ∧ (run (host given) r w).1.output = "" ∧
      (run (host given) r w).2 = { w with input := left w.input read }) ∧
    ∀ sources s, Infers given w r sources s →
      Delivers { w with input := left w.input sources } r (View.render r.hideNullOnly s).printed
        (run (host given) r w).1 (run (host given) r w).2 := by
  refine ⟨?_, fun read f h => ?_, fun sources s h => run_of_infers hn h⟩
  · obtain ⟨e, he⟩ := exists_loads w r
    rcases e with f | c
    · exact .inr ⟨_, f, .settings he⟩
    rcases collects_or_fails given r.inputs with
      ⟨sources, hs⟩ | ⟨before, input, after, _, f, e, hb, h⟩
    · have hs : Collects given r.inputs ([] ++ sources) := hs
      have hnone : Reads w [] [] := rfl
      exact infers_or_fails he hs hnone rfl
    · exact .inr ⟨_, f, .input he e hb h⟩
  · obtain ⟨events, e⟩ := run_of_fails hn h
    rw [e]
    exact ⟨rfl, rfl, rfl⟩

/-- Two documents, the settings for them, and a file that is no text. -/
def fourFiles : Workspace :=
  ⟨[], [(["c"], .ok "\x7b\"kv_paths\":[\"m\"],\"use_view\":true\x7d"),
    (["d1"], .ok "\x7b\"m\":\x7b\"k\":1\x7d\x7d"), (["d2"], .ok "\x7b\"m\":\x7b\"j\":2\x7d\x7d"),
    (["x"], .error .notText)], .ok "[]"⟩

/-- The documents by a pattern. -/
def bothDocuments : Expansion := fun pattern =>
  if pattern = "d*" then some [.ok "d1", .ok "d2"] else none

/-- The view of the documents for a file in a directory that is not there yet. -/
def intoFile : Request :=
  { inputs := ["d*"], settingsFile := some "c", rootName := some "doc", strict := true,
    output := some "o/s" }

/-- The lines that come to be in the file. -/
def documentsView : List String :=
  ["\x7b",
    "  \"title\": \"doc\",",
    "  \"root\": \x7b",
    "    \"$ref\": \"#/definitions/doc_t\"",
    "  \x7d,",
    "  \"definitions\": \x7b",
    "    \"doc_t\": \x7b",
    "      \"type\": \"object\",",
    "      \"properties\": \x7b",
    "        \"m\": \x7b",
    "          \"type\": \"object\",",
    "          \"title\": \"m\",",
    "          \"additionalProperties\": \x7b",
    "            \"type\": \"integer\"",
    "          \x7d",
    "        \x7d",
    "      \x7d,",
    "      \"required\": [",
    "        \"m\"",
    "      ]",
    "    \x7d",
    "  \x7d,",
    "  \"features\": \x7b",
    "    \"has_arrays\": false,",
    "    \"has_integrals\": true,",
    "    \"has_optionals\": false,",
    "    \"has_strings\": false,",
    "    \"has_kv\": true",
    "  \x7d,",
    "  \"stringView\": true",
    "\x7d"]

theorem expands_bothDocuments :
    Expands bothDocuments "d*" (.ok (["d1", "d2"].map .file)) := by
  have hpattern : IsPattern "d*" := .inl (by decide)
  exact .paths hpattern rfl

theorem infers_documentsView : ∃ s,
    Infers bothDocuments fourFiles intoFile [.file "d1", .file "d2"] s ∧
      (View.render intoFile.hideNullOnly s).printed = "\n".intercalate documentsView := by
  let file := "\x7b\"kv_paths\":[\"m\"],\"use_view\":true\x7d"
  let texts := ["\x7b\"m\":\x7b\"k\":1\x7d\x7d", "\x7b\"m\":\x7b\"j\":2\x7d\x7d"]
  let c := (Settings.ofText? file).getD .default
  have hloads : Loads fourFiles intoFile (.ok (intoFile.settings c)) :=
    .file rfl (by cbv) (by decide +kernel)
  have hcollects : Collects bothDocuments intoFile.inputs [.file "d1", .file "d2"] :=
    ⟨_, .cons expands_bothDocuments .nil, rfl⟩
  have hreads : Reads fourFiles [.file "d1", .file "d2"] texts := by
    have h₁ : fourFiles.readFile "d1" = .ok "\x7b\"m\":\x7b\"k\":1\x7d\x7d" := by cbv
    have h₂ : fourFiles.readFile "d2" = .ok "\x7b\"m\":\x7b\"j\":2\x7d\x7d" := by cbv
    show [fourFiles.readFile "d1", fourFiles.readFile "d2"] = _
    rw [h₁, h₂]
    rfl
  have hview : (inferTexts (intoFile.settings c) texts).value?.map (fun s =>
      (View.render intoFile.hideNullOnly s).lines.map Tree.Line.indented) = some documentsView := by
    decide +kernel
  obtain ⟨s, hs, hlines⟩ := Option.map_eq_some_iff.1 hview
  exact ⟨s, .intro hloads hcollects hreads (value?_eq_some.1 hs), congrArg _ hlines⟩

/-- The standard input has a document, and the file after it is none. -/
theorem fails_notText : Fails bothDocuments fourFiles { inputs := ["-", "x", "d*"] }
    [.standardInput, .file "x"] (.sourceUnread (.file "x") .notText) := by
  have hx : ¬ IsPattern "x" := isPattern_iff.not.1 (by decide)
  have hcollects : Collects bothDocuments ["-", "x", "d*"]
      ([.standardInput] ++ .file "x" :: [.file "d1", .file "d2"]) :=
    ⟨_, .cons .input (.cons (.file (by decide) hx) (.cons expands_bothDocuments .nil)), rfl⟩
  have hreads : Reads fourFiles [.standardInput] ["[]"] := rfl
  have hunread : content fourFiles (.ok "") (.file "x") = .error .notText := by cbv
  obtain ⟨s, hs⟩ := Option.isSome_iff_exists.1
    (show (inferTexts .default ["[]"]).value?.isSome = true by decide +kernel)
  exact .unread (.default rfl) hcollects hreads (value?_eq_some.1 hs) hunread

/-- The directory for the view can be made, and the file can be written there. -/
theorem prepares_fourFiles :
    Prepares fourFiles "o/s" { fourFiles with directories := [["o"]] } := by
  have hparent : parentPath? "o/s" = some "o" := by cbv
  have hmade : makeDirectories "o" fourFiles =
      (.ok (), { fourFiles with directories := [["o"]] }) := by cbv
  exact .made hparent hmade

/-- First the view is in the file that was asked for. Then a file is no text, after the standard input
and before the documents. -/
theorem run_pipeline_files :
    let written := run (host bothDocuments) intoFile fourFiles
    let unread := run (host bothDocuments) { inputs := ["-", "x", "d*"] } fourFiles
    (written.1.failure = none ∧ written.1.output = "" ∧
      written.2.readFile "o/s" = .ok ("\n".intercalate documentsView) ∧
      written.2.directories = [["o"]] ∧ written.2.input = .ok "[]") ∧
    unread.1.failure = some (.sourceUnread (.file "x") .notText) ∧ unread.1.output = "" ∧
      unread.2 = { fourFiles with input := .ok "" } := by
  intro written unread
  constructor
  · obtain ⟨s, hinfers, hprinted⟩ := infers_documentsView
    have hdelivers : Delivers fourFiles intoFile _ written.1 written.2 :=
      (run_pipeline bothDocuments fourFiles intoFile rfl).2.2 _ s hinfers
    have hwritten : ∀ text, ({ fourFiles with directories := [["o"]] } : Workspace).writeFile
        "o/s" text = .ok ({ fourFiles with directories := [["o"]] }.putFile ["o", "s"] text) :=
      fun text => by cbv
    obtain ⟨hnone, hempty, hwrites⟩ := hdelivers.writes rfl prepares_fourFiles (hwritten _)
    have hread := hwrites.readFile
    cases hwrites with
    | intro hp _ _ hdirectories hinput =>
      obtain rfl := hp.unique prepares_fourFiles
      refine ⟨hnone, hempty, ?_, hdirectories, hinput⟩
      rw [← hprinted]
      exact hread
  · exact (run_pipeline bothDocuments fourFiles { inputs := ["-", "x", "d*"] } rfl).2.1 _ _
      fails_notText

end SchemaInference.Command
