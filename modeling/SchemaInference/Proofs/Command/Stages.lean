/-
The stages of a command. What a request asks of a workspace is told stage by stage: the settings that it
loads (`Loads`), the sources that an input stands for (`Expands`), what each source holds when its turn
comes (`contents`), and how a text is delivered (`Delivers`). Each stage of the command comes to just
that, and where one fails, no source after it is read. What patterns stand for is given.
-/
import Mathlib
import SchemaInference.Command.Report
import SchemaInference.Proofs.Command.Workspace
import SchemaInference.Proofs.Outcome

namespace SchemaInference.Command

open Schema Traced Workspace

/-! ## What a request asks for -/

/-- What comes of the settings of a request: those of its file, or the default ones, with what the
request itself says on top. -/
inductive Loads (w : Workspace) (r : Request) : Except Failure Settings → Prop
  | default (h : r.settingsFile = none) : Loads w r (.ok (r.settings .default))
  | file {path text : String} {c : Settings} (h : r.settingsFile = some path)
      (hread : w.readFile path = .ok text) (hc : Settings.ofText? text = some c) :
      Loads w r (.ok (r.settings c))
  | unread {path : String} {f : FileFault} (h : r.settingsFile = some path)
      (hread : w.readFile path = .error f) : Loads w r (.error (.settingsUnread path f))
  | rejected {path text : String} (h : r.settingsFile = some path)
      (hread : w.readFile path = .ok text) (hc : Settings.ofText? text = none) :
      Loads w r (.error (.settingsRejected path))

/-- The input has a character that stands for others. -/
def IsPattern (input : String) : Prop :=
  '*' ∈ input.toList ∨ '?' ∈ input.toList ∨ '[' ∈ input.toList

/-- What comes of one input: a dash is the standard input, a pattern stands for the paths that are given
for it, at least one, and any other input is the path of a file. -/
inductive Expands (given : Expansion) : String → Except Failure (List Source) → Prop
  | input : Expands given "-" (.ok [.standardInput])
  | file {input : String} (hne : input ≠ "-") (h : ¬ IsPattern input) :
      Expands given input (.ok [.file input])
  | paths {input path : String} {paths : List String} (h : IsPattern input)
      (hg : given input = some ((path :: paths).map .ok)) :
      Expands given input (.ok ((path :: paths).map .file))
  | invalid {input : String} (h : IsPattern input) (hg : given input = none) :
      Expands given input (.error (.patternInvalid input))
  | unexpanded {input : String} {before : List String} {f : FileFault} {after : Entries}
      (h : IsPattern input) (hg : given input = some (before.map .ok ++ .error f :: after)) :
      Expands given input (.error (.patternUnexpanded input f))
  | unmatched {input : String} (h : IsPattern input) (hg : given input = some []) :
      Expands given input (.error (.patternUnmatched input))

/-- The sources of all inputs, in the order of the inputs. -/
def Collects (given : Expansion) (inputs : List String) (sources : List Source) : Prop :=
  ∃ parts, List.Forall₂ (fun input part => Expands given input (.ok part)) inputs parts ∧
    parts.flatten = sources

/-- What a source holds while `input` is left of the standard input. -/
def content (w : Workspace) (input : Content) : Source → Content
  | .standardInput => input
  | .file path => w.readFile path

/-- What a source leaves of the standard input. -/
def leftBy (input : Content) : Source → Content
  | .standardInput => .ok ""
  | .file _ => input

/-- What is left of the standard input after the sources. -/
def left (input : Content) (sources : List Source) : Content := sources.foldl leftBy input

/-- What the sources hold, each when those before it are read. -/
def contents (w : Workspace) : Content → List Source → List Content
  | _, [] => []
  | input, source :: sources => content w input source :: contents w (leftBy input source) sources

/-- All sources can be read, and they hold these texts. -/
def Reads (w : Workspace) (sources : List Source) (texts : List String) : Prop :=
  contents w w.input sources = texts.map .ok

/-- The workspace once the directory that the path stands in is there. -/
inductive Prepares (w : Workspace) (path : String) : Workspace → Prop
  | here (h : parentPath? path = none) : Prepares w path w
  | made {dir : String} {w' : Workspace} (h : parentPath? path = some dir)
      (hm : makeDirectories dir w = (.ok (), w')) : Prepares w path w'

/-- The file of the path holds the text. Beside it and the directories on the way to it all is the
same. -/
inductive Writes (w : Workspace) (path text : String) : Workspace → Prop
  | intro {p : Place} {w₁ w' : Workspace} (hp : Prepares w path w₁)
      (hspot : w'.spot path = .ok (.file p (.ok text)))
      (others : ∀ q, q ≠ p → w'.fileAt? q = w.fileAt? q)
      (directories : w'.directories = w₁.directories) (input : w'.input = w.input) :
      Writes w path text w'

/-- The workspace refuses to have the directory of the file made, or to have the file written. All
files are the same. -/
inductive Refuses (w : Workspace) (path text : String) : Failure → Workspace → Prop
  | directory {dir : String} {f : FileFault} {w' : Workspace} (h : parentPath? path = some dir)
      (hm : makeDirectories dir w = (.error f, w')) (files : w'.files = w.files) :
      Refuses w path text (.directoryUnmade dir f) w'
  | file {w' : Workspace} {f : FileFault} (hp : Prepares w path w')
      (hw : w'.writeFile path text = .error f) (files : w'.files = w.files) :
      Refuses w path text (.unwritten path f) w'

/-- The text is printed as a line and all stays as it is; or it is put into the file that is asked for,
and nothing is printed; or the workspace refuses, which is the failure then. -/
inductive Delivers (w : Workspace) (r : Request) (text : String) : Report → Workspace → Prop
  | printed {events : List Event} (h : r.output = none) :
      Delivers w r text ⟨text ++ "\n", events, none⟩ w
  | written {path : String} {events : List Event} {w' : Workspace} (h : r.output = some path)
      (hw : Writes w path text w') : Delivers w r text ⟨"", events, none⟩ w'
  | refused {path : String} {events : List Event} {w' : Workspace} {f : Failure}
      (h : r.output = some path) (hf : Refuses w path text f w') :
      Delivers w r text (.failed events f) w'

/-! ## Stages -/

variable {given : Expansion} {w w' : Workspace} {r : Request} {c : Settings}

theorem loadSettings_of_loads {e : Except Failure Settings} (h : Loads w r e) :
    loadSettings (host given) r w = (e, w) := by
  cases h with
  | default h =>
    simp only [loadSettings, h]
    rfl
  | file h hread hc =>
    simp only [loadSettings, h, bind_readFile, hread, hc]
    rfl
  | unread h hread =>
    simp only [loadSettings, h, bind_readFile, hread]
    rfl
  | rejected h hread hc =>
    simp only [loadSettings, h, bind_readFile, hread, hc]
    rfl

theorem isPattern_iff {input : String} : isPattern input = true ↔ IsPattern input := by
  unfold isPattern IsPattern
  rw [List.any_eq_true]
  constructor
  · rintro ⟨c, hc, h⟩
    simp only [Bool.or_eq_true, beq_iff_eq] at h
    obtain (rfl | rfl) | rfl := h
    · exact .inl hc
    · exact .inr (.inl hc)
    · exact .inr (.inr hc)
  · rintro (h | h | h) <;> exact ⟨_, h, by decide⟩

theorem IsPattern.ne {input : String} (h : IsPattern input) : input ≠ "-" := by
  rintro rfl
  exact absurd (isPattern_iff.2 h) (by decide)

theorem mapM_ok (paths : List String) :
    (paths.map Except.ok : Entries).mapM id = .ok paths := by
  rw [List.mapM_map]
  exact List.mapM_pure.trans (congrArg Except.ok (List.map_id paths))

theorem mapM_error (before : List String) (f : FileFault) (after : Entries) :
    (before.map Except.ok ++ .error f :: after : Entries).mapM id = .error f := by
  rw [List.mapM_append, mapM_ok, List.mapM_cons]
  rfl

theorem sourcesOf_of_expands {input : String} {e : Except Failure (List Source)}
    (h : Expands given input e) : sourcesOf (host given) input w = (e, w) := by
  have hpattern : ∀ found, IsPattern input → given input = found →
      sourcesOf (host given) input w = (sourcesFound input found, w) := by
    rintro _ h rfl
    simp only [sourcesOf, if_neg h.ne, isPattern_iff.2 h, if_true, bind_expand?]
    rfl
  cases h with
  | input => rfl
  | file hne h =>
    have h : isPattern input = false := Bool.eq_false_iff.2 (isPattern_iff.not.2 h)
    simp only [sourcesOf, if_neg hne, h]
    rfl
  | paths h hg =>
    rw [hpattern _ h hg, sourcesFound, mapM_ok]
  | invalid h hg => exact hpattern _ h hg
  | unexpanded h hg => rw [hpattern _ h hg, sourcesFound, mapM_error]
  | unmatched h hg => exact hpattern _ h hg

/-- Inputs that stand for sources, and then those after them. -/
theorem allSources_append {before after : List String} {sources : List Source}
    {e : Except Failure (List Source)} (hb : Collects given before sources)
    (h : allSources (host given) after w = (e, w)) :
    allSources (host given) (before ++ after) w = (e.map (sources ++ ·), w) := by
  obtain ⟨parts, hall, rfl⟩ := hb
  induction hall with
  | nil => cases e <;> exact h
  | @cons input part before parts hinput _ ih =>
    rw [List.cons_append]
    unfold allSources
    rw [bind_of_eq (sourcesOf_of_expands hinput)]
    dsimp only
    rw [bind_of_eq ih, List.flatten_cons]
    cases e with
    | error f => rfl
    | ok sources =>
      show (Except.ok (part ++ (parts.flatten ++ sources)), w) = _
      rw [← List.append_assoc]
      rfl

theorem allSources_of_collects {inputs : List String} {sources : List Source}
    (h : Collects given inputs sources) : allSources (host given) inputs w = (.ok sources, w) := by
  have hnone : allSources (host given) [] w = (.ok [], w) := rfl
  have hall := allSources_append h hnone
  rw [List.append_nil] at hall
  rw [hall, Except.map, List.append_nil]

theorem allSources_of_fails {before : List String} {input : String} {sources : List Source}
    {f : Failure} (hb : Collects given before sources) (h : Expands given input (.error f))
    (after : List String) :
    allSources (host given) (before ++ input :: after) w = (.error f, w) := by
  have hfault : allSources (host given) (input :: after) w = (.error f, w) := by
    unfold allSources
    rw [bind_of_eq (sourcesOf_of_expands h)]
    rfl
  exact allSources_append hb hfault

/-! ### Reading and observing -/

theorem contents_append (w : Workspace) (input : Content) (before after : List Source) :
    contents w input (before ++ after) =
      contents w input before ++ contents w (left input before) after := by
  induction before generalizing input with
  | nil => rfl
  | cons s before ih => exact congrArg (_ :: ·) (ih _)

theorem left_append (input : Content) (before after : List Source) :
    left input (before ++ after) = left (left input before) after := List.foldl_append

theorem readSource_eq (w : Workspace) (input : Content) (source : Source) :
    readSource (host given) source { w with input } =
      (content w input source, { w with input := leftBy input source }) := by
  cases source with
  | standardInput => rfl
  | file path =>
    show (({ w with input } : Workspace).readFile path, _) = _
    rw [readFile_withInput]
    rfl

section Observe

variable {run run' : Run} {source : Source} {input : Content}

/-- A source that cannot be observed is the last one that is read. -/
theorem observeSources_of_error (given : Expansion) {f : Failure} (sources : List Source)
    (h : (observeSource run source (content w input source)).outcome = .error f) :
    observeSources (host given) run (source :: sources) { w with input } =
      (observeSource run source (content w input source),
        { w with input := leftBy input source }) := by
  unfold observeSources
  rw [bind_of_eq (readSource_eq w input source)]
  simp only [h]
  rfl

theorem observeSources_of_ok {sources : List Source} {t : Traced Failure Run}
    (h : (observeSource run source (content w input source)).outcome = .ok run')
    (ht : observeSources (host given) run' sources { w with input := leftBy input source } = (t, w')) :
    observeSources (host given) run (source :: sources) { w with input } =
      (⟨(observeSource run source (content w input source)).events ++ t.events, t.outcome⟩, w') := by
  unfold observeSources
  rw [bind_of_eq (readSource_eq w input source)]
  simp only [h]
  rw [bind_of_eq ht]
  generalize observeSource run source (content w input source) = x at h
  obtain ⟨es, _⟩ := x
  cases h
  rfl

theorem value?_observeSource (run : Run) (source : Source) (text : String) :
    (observeSource run source (.ok text)).value? = (run.observeText text).value? := by
  unfold observeSource
  rw [value?_bind, value?_emit, Option.bind_some, value?_mapFault]

/-- Sources that hold texts are observed as these texts, and then those after them. -/
theorem observeSources_append {before after : List Source} {texts : List String}
    {t : Traced Failure Run} (hb : contents w input before = texts.map .ok)
    (hr : (texts.foldlM Run.observeText run).value? = some run')
    (ht : observeSources (host given) run' after { w with input := left input before } = (t, w')) :
    ∃ events, observeSources (host given) run (before ++ after) { w with input } =
      (⟨events ++ t.events, t.outcome⟩, w') := by
  induction before generalizing texts run input with
  | nil =>
    obtain rfl : texts = [] := List.map_eq_nil_iff.1 hb.symm
    cases hr
    exact ⟨[], ht⟩
  | cons source before ih =>
    obtain ⟨text, texts, rfl, hx, hb⟩ := List.map_eq_cons_iff.1 hb.symm
    rw [List.foldlM_cons, value?_bind, Option.bind_eq_some_iff] at hr
    obtain ⟨run₁, hr₁, hr⟩ := hr
    have hsource : (observeSource run source (content w input source)).outcome = .ok run₁ := by
      rw [← hx, ← value?_eq_some, value?_observeSource, hr₁]
    obtain ⟨events, h⟩ := ih hb.symm hr ht
    exact ⟨_ ++ events, by rw [List.append_assoc]; exact observeSources_of_ok hsource h⟩

end Observe

theorem inferTexts_eq_ok {texts : List String} {s : Inferred} :
    (inferTexts c texts).outcome = .ok s ↔
      ∃ run, (texts.foldlM Run.observeText (Run.start c)).value? = some run ∧ run.finish = s := by
  rw [← value?_eq_some]
  unfold inferTexts
  rw [value?_bind, Option.bind_eq_some_iff]
  simp only [pure_eq, value?_ok, Option.some.injEq]

/-- A text that has no schema after those before ends in a fault where it is observed. -/
theorem fault?_observeText {texts : List String} {text : String} {run : Run} {e : Refusal}
    (hr : (texts.foldlM Run.observeText (Run.start c)).value? = some run)
    (h : (inferTexts c (texts ++ [text])).outcome = .error e) :
    (run.observeText text).fault? = some e := by
  rw [← fault?_eq_some] at h
  unfold inferTexts at h
  rw [List.foldlM_append] at h
  rcases fault?_bind.1 h with h | ⟨_, -, h⟩
  · rcases fault?_bind.1 h with h | ⟨run', hr', h⟩
    · rw [fault?_eq_some] at h
      rw [value?_eq_some, h] at hr
      cases hr
    · obtain rfl := Option.some.inj (hr'.symm.trans hr)
      rw [List.foldlM_cons] at h
      rcases fault?_bind.1 h with h | ⟨_, -, h⟩
      · exact h
      · cases h
  · cases h

/-- Where all sources can be read and their texts have a schema, that is what is inferred. -/
theorem inferSources_ok (given : Expansion) {sources : List Source} {texts : List String} {s : Inferred}
    (ht : Reads w sources texts) (h : (inferTexts c texts).outcome = .ok s) :
    ∃ events, inferSources (host given) c sources w =
      (⟨events, .ok s⟩, { w with input := left w.input sources }) := by
  obtain ⟨run, hr, rfl⟩ := inferTexts_eq_ok.1 h
  have hnone : observeSources (host given) run [] { w with input := left w.input sources } =
      (pure run, { w with input := left w.input sources }) := rfl
  obtain ⟨events, hobserved⟩ := observeSources_append ht hr hnone
  rw [List.append_nil] at hobserved
  unfold inferSources
  rw [bind_of_eq hobserved]
  exact ⟨_, rfl⟩

/-- The first source that cannot be observed ends the inference. -/
theorem inferSources_error (given : Expansion) {before : List Source} {source : Source}
    (after : List Source) {texts : List String} {s : Inferred} {f : Failure} (ht : Reads w before texts)
    (hb : (inferTexts c texts).outcome = .ok s)
    (h : ∀ run, (texts.foldlM Run.observeText (Run.start c)).value? = some run →
      (observeSource run source (content w (left w.input before) source)).outcome = .error f) :
    ∃ events, inferSources (host given) c (before ++ source :: after) w =
      (⟨events, .error f⟩, { w with input := left w.input (before ++ [source]) }) := by
  obtain ⟨run, hr, -⟩ := inferTexts_eq_ok.1 hb
  have hlast := observeSources_of_error given after (h run hr)
  obtain ⟨events, hobserved⟩ := observeSources_append ht hr hlast
  unfold inferSources
  rw [bind_of_eq hobserved, h run hr, left_append]
  exact ⟨_, rfl⟩

/-! ### Delivering -/

theorem prepare_cases (w : Workspace) (path : String) :
    (∃ dir f w', parentPath? path = some dir ∧ makeDirectories dir w = (.error f, w') ∧
      prepare (host given) path w = (.error (.directoryUnmade dir f), w')) ∨
    ∃ w', Prepares w path w' ∧ prepare (host given) path w = (.ok (), w') := by
  unfold prepare
  rcases hp : parentPath? path with _ | dir
  · exact .inr ⟨w, .here hp, rfl⟩
  rcases hm : makeDirectories dir w with ⟨f | ⟨⟩, w'⟩
  · refine .inl ⟨dir, f, w', rfl, hm, ?_⟩
    have hmake : (host given).makeDirectories dir w = (.error f, w') := hm
    dsimp only
    rw [bind_of_eq hmake]
    rfl
  · refine .inr ⟨w', .made hp hm, ?_⟩
    have hmake : (host given).makeDirectories dir w = (.ok (), w') := hm
    dsimp only
    rw [bind_of_eq hmake]
    rfl

theorem Prepares.keeps {path : String} (h : Prepares w path w') :
    w'.files = w.files ∧ w'.input = w.input := by
  cases h with
  | here => exact ⟨rfl, rfl⟩
  | @made dir w' _ hm =>
    have hkeeps := keepsFiles_makeDirectories dir w
    rwa [hm] at hkeeps

/-- The file holds the text afterwards and the others what they held, or the workspace refuses. -/
theorem deliver_cases (w : Workspace) (path text : String) :
    (∃ w', deliver (host given) (some path) text w = (.ok "", w') ∧ Writes w path text w') ∨
    ∃ w' f, deliver (host given) (some path) text w = (.error f, w') ∧
      Refuses w path text f w' := by
  unfold deliver
  dsimp only
  rcases prepare_cases w path with ⟨dir, f, w', hp, hm, e⟩ | ⟨w₁, hp, e⟩
  · rw [bind_of_eq e]
    have hfiles := (keepsFiles_makeDirectories dir w).1
    rw [hm] at hfiles
    exact .inr ⟨w', _, rfl, .directory hp hm hfiles⟩
  rw [bind_of_eq e]
  dsimp only
  obtain ⟨hfiles, hinput⟩ := hp.keeps
  rcases hw : w₁.writeFile path text with f | w'
  · have hwrite : (host given).writeFile path text w₁ = (.error f, w₁) := by
      show apply (·.writeFile path text) w₁ = _
      exact apply_of_error hw
    rw [bind_of_eq hwrite]
    exact .inr ⟨w₁, _, rfl, .file hp hw hfiles⟩
  · have hwrite : (host given).writeFile path text w₁ = (.ok (), w') := by
      show apply (·.writeFile path text) w₁ = _
      exact apply_of_ok hw
    rw [bind_of_eq hwrite]
    obtain ⟨p, rfl, hspot⟩ := writeFile_eq_ok hw
    refine .inl ⟨_, rfl, .intro hp hspot (fun q hq => ?_) rfl hinput⟩
    rw [fileAt?_putFile_of_ne text hq]
    unfold fileAt?
    rw [hfiles]

theorem Prepares.unique {path : String} {w₁ w₂ : Workspace} (h₁ : Prepares w path w₁)
    (h₂ : Prepares w path w₂) : w₁ = w₂ := by
  cases h₁ with
  | here h₁ =>
    cases h₂ with
    | here => rfl
    | made h₂ => cases h₁.symm.trans h₂
  | made h₁ hm₁ =>
    cases h₂ with
    | here h₂ => cases h₂.symm.trans h₁
    | made h₂ hm₂ =>
      obtain rfl := Option.some.inj (h₁.symm.trans h₂)
      exact (Prod.mk.inj (hm₁.symm.trans hm₂)).2

/-- Where the directory is there or can be made, and the file can be written, it is. -/
theorem Delivers.writes {path text : String} {report : Report} {w₁ w₂ : Workspace}
    (h : Delivers w r text report w') (ho : r.output = some path) (hp : Prepares w path w₁)
    (hw : w₁.writeFile path text = .ok w₂) :
    report.failure = none ∧ report.output = "" ∧ Writes w path text w' := by
  cases h with
  | printed h => cases h.symm.trans ho
  | written h hw' =>
    obtain rfl := Option.some.inj (h.symm.trans ho)
    exact ⟨rfl, rfl, hw'⟩
  | refused h hf =>
    obtain rfl := Option.some.inj (h.symm.trans ho)
    cases hf with
    | directory hd hm =>
      cases hp with
      | here h => cases h.symm.trans hd
      | made h hm' =>
        obtain rfl := Option.some.inj (h.symm.trans hd)
        cases hm.symm.trans hm'
    | file hp' hw' =>
      obtain rfl := hp.unique hp'
      cases hw.symm.trans hw'

theorem Writes.readFile {path text : String} (h : Writes w path text w') :
    w'.readFile path = .ok text := by
  cases h with
  | intro _ hspot => rw [Workspace.readFile, hspot]

end SchemaInference.Command
