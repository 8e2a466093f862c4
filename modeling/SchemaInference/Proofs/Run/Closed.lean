/-
Registries that cover their own entries. One that does goes on doing so while documents are inferred,
also where only a part of one is (`Slot.closed_infer`): what an entry absorbs it absorbs for good, so
what was covered stays covered (`Node.Covered.mono`), and what is shown in between is covered as soon as
it is.
-/
import SchemaInference.Proofs.Run.Coverage
import SchemaInference.Proofs.Run.Invariant

namespace SchemaInference

open Schema Traced

namespace Registry

/-- What an entry absorbs, the entry of its name in the other registry absorbs as well. -/
def Below (p : Policy) (r r' : Registry) : Prop :=
  ∀ name e n, r.find? name = some e → Absorbs p e.node n →
    ∃ e', r'.find? name = some e' ∧ Absorbs p e'.node n

/-- Well formed, and all that stands in an entry is covered. -/
structure Closed (p : Policy) (r : Registry) : Prop where
  wf : r.WF
  entries : ∀ e ∈ r.objects, e.node.Covered p r

end Registry

theorem Schema.Node.Covered.mono {p : Policy} {r r' : Registry} {a : Node} (h : a.Covered p r)
    (hr : r.Below p r') : a.Covered p r' := by
  induction h with
  | null => exact .null
  | scalar => exact .scalar ..
  | array _ _ ih => exact .array _ ih
  | object _ he h _ ih =>
    obtain ⟨e', he', h'⟩ := hr _ _ _ he h
    exact .object _ he' h' ih
  | map _ _ _ ih => exact .map _ _ ih

/-- What is taken in leaves the registry closed, where it covers the objects taken in. -/
theorem Findings.closed_into? {p : Policy} {w : Findings} {g g' : Gathered}
    (hg : g.registry.Closed p)
    (hos : ∀ o ∈ w.objects, o.node.WF ∧ o.optional = false ∧ o.node.Covered p g'.registry)
    (h : w.into? p g = some g') : g'.registry.Closed p ∧ g.registry.Below p g'.registry := by
  have hwf := fun o ho => (hos o ho).1
  have hbelow : g.registry.Below p g'.registry := fun name e n he habs =>
    into?_absorbs hg.wf hwf h (.inl ⟨e, he, habs⟩)
  refine ⟨⟨wf_into? hg.wf hwf h, fun e he => ?_⟩, hbelow⟩
  exact known_into? (fun _ _ _ => .joins) hg.wf (fun e he => (hg.entries e he).mono hbelow) hos h he

namespace Slot

variable {c : Settings} {path : Path} {hint : Identifier} {s : Sample} {g g' : Gathered} {n : Node}

/-- What is shown in a slot is covered once its objects are declared. -/
theorem covered_shown {w : Findings} (hg : g.registry.WF) (hs : shown? c path hint s = some (n, w))
    {w' : Findings} (hsub : ∀ o ∈ w.objects, o ∈ w'.objects)
    (hos : ∀ o ∈ w'.objects, o.node.WF) (hw : w'.into? c.policy g = some g') :
    (n.WF ∧ n.Covered c.policy g'.registry) ∧
      ∀ o ∈ w.objects, o.node.WF ∧ o.optional = false ∧ o.node.Covered c.policy g'.registry := by
  obtain ⟨hn, ho⟩ := shown?_known (kept_covered c.policy g'.registry) hs fun o ho =>
    Findings.absorbs_into? hg hos hw (hsub o ho)
  exact ⟨hn, fun o hm => ⟨(ho o hm).1, (ho o hm).2.2, (ho o hm).2.1⟩⟩

/-- Inferring a slot leaves the registry closed, and it covers the node. -/
theorem closed_infer (hg : g.registry.Closed c.policy)
    (h : (infer c path hint s g).value? = some (n, g')) :
    (g'.registry.Closed c.policy ∧ g.registry.Below c.policy g'.registry) ∧
      n.WF ∧ n.Covered c.policy g'.registry := by
  obtain ⟨w, hs, hw⟩ := (value?_infer ..).1 h
  obtain ⟨hn, hos⟩ := covered_shown hg.wf hs (fun _ ho => ho)
    (fun o ho => ((shown?_wf hs).2 o ho).1) hw
  exact ⟨Findings.closed_into? hg hos hw, hn⟩

/-- So does inferring members; each of them is one of those in the sample. -/
theorem closed_inferMembers {members : List (Identifier × Sample)} {ms : Members}
    (hg : g.registry.Closed c.policy)
    (h : (inferMembers c path members [] g).value? = some (ms, g')) :
    g'.registry.Closed c.policy ∧ ms.Keep (fun name => ∃ m ∈ members, m.1 = name)
      fun _ a => a.WF ∧ a.Covered c.policy g'.registry := by
  obtain ⟨named, w, hs, hms, hw⟩ := (value?_inferMembers
    (fun _ _ path hint g n g' => value?_infer c path hint _ g n g') ..).1 h
  rw [shownMembers?_eq] at hs
  have hwf : ∀ o ∈ w.objects, o.node.WF := fun o ho => by
    obtain ⟨m, -, k, w', hm, ho, -⟩ := collect?_objects hs ho
    exact ((shown?_wf (shownMember?_eq_some.1 hm).2).2 o ho).1
  have hos : ∀ o ∈ w.objects,
      o.node.WF ∧ o.optional = false ∧ o.node.Covered c.policy g'.registry := fun o ho => by
    obtain ⟨m, -, k, w', hm, ho, hsub⟩ := collect?_objects hs ho
    exact (covered_shown hg.wf (shownMember?_eq_some.1 hm).2 hsub hwf hw).2 o ho
  refine ⟨(Findings.closed_into? hg hos hw).1, fun m hm => ?_⟩
  constructor
  · have hname := ((Members.mem_names_gather? hms).1 (List.mem_map_of_mem hm)).resolve_left (by simp)
    obtain ⟨k, hk, e⟩ := List.mem_map.1 hname
    obtain ⟨m', hm', w', hk, -⟩ := collect?_right hs hk
    exact ⟨m', hm', (shownMember?_eq_some.1 hk).1.trans e⟩
  · have hget := Members.get?_of_mem (Members.unique_gather? Members.unique_nil hms) hm
    refine Members.gather?_known (fun _ _ _ => .joins) hms (fun n hn => ?_) hget
    obtain ⟨m, -, w', hm, hsub⟩ := collect?_right hs hn
    exact (covered_shown hg.wf (shownMember?_eq_some.1 hm).2 hsub hwf hw).1

end Slot

/-- The registry of a run is closed. -/
theorem Run.Outcome.closed {c : Settings} {vs : List Document.Value} {r : Run} {ns : List Node}
    {w : Findings} (h : Outcome c vs r ns w) : r.gathered.registry.Closed c.policy :=
  ⟨h.registry_wf, fun _ he => h.covered_entry he⟩

end SchemaInference
