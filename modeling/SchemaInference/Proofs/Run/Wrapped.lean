/-
Documents that are no objects. Such a document is observed as if it were the one member, named after
the root, of an object around it, and to write that object out changes nothing
(`observe_wrapped`): the builder sanitizes the names of written members, and the name of the root is
one that sanitizing leaves as it is, whatever dialect the settings came to. All that tells the two
apart is the event with which the written object is announced. So in a run any documents may be
written this way or the other (`observeAll_wrapped`).
-/
import SchemaInference.Proofs.Run.Documents
import SchemaInference.Proofs.Settings.Built

namespace SchemaInference.Run

open Schema Document Traced

variable {c : Settings} {r r' : Run} {v v' : Value} {vs vs' : List Value}

/-! ## One document -/

/-- Both ways the root is inferred from the same member; the object that is written is announced
first. -/
theorem inferRoot_wrapped (h : c.Built) (hv : ∀ members, v ≠ .object members) (g : Gathered) :
    inferRoot c (Sample.ofValue c.dialect (wrapped c v)) g =
      emit (.visiting [] c.rootName .object) >>= fun _ =>
        inferRoot c (Sample.ofValue c.dialect v) g := by
  rw [ofValue_wrapped h.sanitize_rootName]
  cases v with
  | object members => exact absurd rfl (hv members)
  | _ => exact Slot.infer_object ..

theorem observe_wrapped_eq (h : r.settings.Built) (hv : ∀ members, v ≠ .object members) :
    r.observe (wrapped r.settings v) =
      emit (.visiting [] r.settings.rootName .object) >>= fun _ => r.observe v := by
  unfold observe
  simp only [inferRoot_wrapped h hv, bind_assoc]

theorem settings_of_observe (h : (r.observe v).outcome = .ok r') : r'.settings = r.settings := by
  obtain ⟨_, _, _, _, -, -, -, rfl⟩ := value?_observe.1 (value?_eq_some.2 h)
  rfl

/-- A document that is no object, and the object with it as the one member under the name of the
root: from any state of a run both lead to the same state, or to the same fault, and the events
differ in the announcement of the object. -/
theorem observe_wrapped (h : r.settings.Built) (hv : ∀ members, v ≠ .object members) :
    (r.observe (wrapped r.settings v)).outcome = (r.observe v).outcome ∧
      (r.observe (wrapped r.settings v)).events =
        .visiting [] r.settings.rootName .object :: (r.observe v).events := by
  rw [observe_wrapped_eq h hv]
  exact ⟨rfl, rfl⟩

/-- The root is a map, and its name one that the dialect reserved: both ways the string clashes with
the integer that was observed before. -/
theorem observe_wrapped_map_root :
    let named := (Settings.default.withDialect .rust).withRootName "self"
    let c := (named.withMapPath "self").withPolicy .strict
    let v : Value := .string "s"
    let fault : Schema.Fault :=
      ⟨[⟨"_jsonself"⟩], .kinds (.scalar .integer) (.scalar .string)⟩
    ∃ r, ((start c).observe (.integer "1")).outcome = .ok r ∧ r.settings.Built ∧
      (∀ members, v ≠ .object members) ∧ (r.observe v).outcome = .error fault ∧
      (r.observe (.object [("_jsonself", v)])).outcome = .error fault := by
  intro named c v fault
  have hnamed : named.Built := (Settings.Built.default.withDialect .rust).withRootName "self"
  have hc : c.Built := (hnamed.withMapPath "self").withPolicy .strict
  let run := (start c).observe (.integer "1")
  have hruns : run.value?.isSome = true := by decide +kernel
  have hfails : (run.value?.bind fun r => (r.observe v).fault?) = some fault := by decide +kernel
  obtain ⟨r, hr⟩ := Option.isSome_iff_exists.1 hruns
  rw [hr, Option.bind_some] at hfails
  have hsettings : r.settings = c := settings_of_observe (value?_eq_some.1 hr)
  have hbuilt : r.settings.Built := hsettings ▸ hc
  have hv : ∀ members, v ≠ .object members := fun _ => Value.noConfusion
  have hname : c.rootName.text = "_jsonself" := by decide +kernel
  have hwrapped : wrapped r.settings v = .object [("_jsonself", v)] := by
    rw [hsettings, wrapped, hname]
  refine ⟨r, value?_eq_some.1 hr, hbuilt, hv, fault?_eq_some.1 hfails, ?_⟩
  rw [← hwrapped, (observe_wrapped hbuilt hv).1]
  exact fault?_eq_some.1 hfails

/-! ## All documents -/

/-- The ways to write a document: as it is, and with an object around it if it is none. -/
inductive Written (c : Settings) : Value → Value → Prop
  | plain (v : Value) : Written c v v
  | wrapped {v : Value} (hv : ∀ members, v ≠ .object members) : Written c v (wrapped c v)

theorem Written.outcome_observe (h : r.settings.Built) (hv : Written r.settings v v') :
    (r.observe v').outcome = (r.observe v).outcome := by
  cases hv with
  | plain => rfl
  | wrapped hv =>
    rw [observe_wrapped_eq h hv]
    rfl

/-- However each of the documents is written, a run over them comes to the same end. -/
theorem observeAll_wrapped (hc : c.Built) (hr : r.settings = c)
    (hvs : List.Forall₂ (Written c) vs vs') :
    (vs'.foldlM observe r).outcome = (vs.foldlM observe r).outcome := by
  induction hvs generalizing r with
  | nil => rfl
  | @cons v v' vs vs' hv hvs ih =>
    subst hr
    rw [List.foldlM_cons, List.foldlM_cons, outcome_bind, outcome_bind, hv.outcome_observe hc]
    cases ho : (r.observe v).outcome with
    | error fault => rfl
    | ok r' => exact ih (settings_of_observe ho)

end SchemaInference.Run
