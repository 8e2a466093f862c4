/-
The settings that can come about. They start from the default or from a file and are changed step by
step; a file is itself a number of changes to the default, so what the default has and every change
keeps holds of all of them (`Built.induction`). One such thing is that the name of the root is
sanitized already.
-/
import SchemaInference.Settings.File
import SchemaInference.Proofs.Identifier.Sanitize

namespace SchemaInference.Settings

open Schema

inductive Built : Settings → Prop
  | default : Built .default
  | file {text : String} {c : Settings} (h : ofText? text = some c) : Built c
  | withRootName {c : Settings} (h : Built c) (raw : String) : Built (c.withRootName raw)
  | withMapPath {c : Settings} (h : Built c) (text : String) : Built (c.withMapPath text)
  | withUseView {c : Settings} (h : Built c) (useView : Bool) : Built (c.withUseView useView)
  | withPolicy {c : Settings} (h : Built c) (policy : Policy) : Built (c.withPolicy policy)
  | withDialect {c : Settings} (h : Built c) (dialect : Dialect) : Built (c.withDialect dialect)
  | withTypeAffixes {c : Settings} (h : Built c) (before after : String) :
      Built (c.withTypeAffixes before after)

section Induction

variable {P : Settings → Prop} (default : P .default)
  (withRootName : ∀ c raw, P c → P (c.withRootName raw))
  (withMapPath : ∀ c text, P c → P (c.withMapPath text))
  (withUseView : ∀ c useView, P c → P (c.withUseView useView))
  (withPolicy : ∀ c policy, P c → P (c.withPolicy policy))
  (withDialect : ∀ c dialect, P c → P (c.withDialect dialect))
  (withTypeAffixes : ∀ c before after, P c → P (c.withTypeAffixes before after))

include default withRootName withMapPath withUseView withPolicy withDialect withTypeAffixes

/-- What a file says is carried out by the same changes. -/
theorem File.settings_induction (f : File) : P f.settings := by
  obtain ⟨root, paths, view, before, after, policy, dialect⟩ := f
  have hdialect : P (dialect.elim .default Settings.default.withDialect) := by
    cases dialect with
    | none => exact default
    | some d => exact withDialect _ d default
  -- the changes come in a fixed order: dialect, root, paths, and then the rest
  generalize he : dialect.elim .default Settings.default.withDialect = c at hdialect
  have hroot : P (root.elim c c.withRootName) := by
    cases root with
    | none => exact hdialect
    | some raw => exact withRootName _ raw hdialect
  generalize hr : root.elim c c.withRootName = c' at hroot
  have hpaths : ∀ (paths : List String) (c : Settings), P c →
      P (paths.foldl Settings.withMapPath c) := by
    intro paths
    induction paths with
    | nil => exact fun c hc => hc
    | cons path paths ih => exact fun c hc => ih _ (withMapPath c path hc)
  have hpaths := hpaths paths c' hroot
  have hlast : File.settings ⟨root, paths, view, before, after, policy, dialect⟩ =
      let d := paths.foldl Settings.withMapPath c'
      ((d.withUseView (view.getD d.useView)).withTypeAffixes (before.getD d.typePrefix)
        (after.getD d.typeSuffix)).withPolicy (policy.getD d.policy) := by
    subst hr
    subst he
    rfl
  rw [hlast]
  exact withPolicy _ _ (withTypeAffixes _ _ _ (withUseView _ _ hpaths))

/-- What the default has and every change keeps. -/
theorem Built.induction {c : Settings} (h : Built c) : P c := by
  induction h with
  | default => exact default
  | @file text c h =>
    obtain ⟨f, -, rfl⟩ := Option.map_eq_some_iff.1 h
    exact File.settings_induction default withRootName withMapPath withUseView withPolicy
      withDialect withTypeAffixes f
  | withRootName _ raw ih => exact withRootName _ raw ih
  | withMapPath _ text ih => exact withMapPath _ text ih
  | withUseView _ useView ih => exact withUseView _ useView ih
  | withPolicy _ policy ih => exact withPolicy _ policy ih
  | withDialect _ dialect ih => exact withDialect _ dialect ih
  | withTypeAffixes _ before after ih => exact withTypeAffixes _ before after ih

end Induction

/-! ## The name of the root -/

theorem rootName_withMapPath (c : Settings) (text : String) :
    (c.withMapPath text).rootName = c.rootName ∧ (c.withMapPath text).dialect = c.dialect := by
  unfold withMapPath
  split <;> exact ⟨rfl, rfl⟩

/-- The name of the root is one that sanitizing leaves as it is. -/
theorem Built.sanitize_rootName {c : Settings} (h : Built c) :
    c.sanitize c.rootName.text = c.rootName := by
  refine Built.induction (P := fun c => c.sanitize c.rootName.text = c.rootName) ?_ ?_ ?_ ?_ ?_ ?_
    ?_ h
  · decide +kernel
  · intro c raw _
    exact Identifier.sanitize_sanitize c.dialect raw
  · intro c text hc
    obtain ⟨hr, hd⟩ := rootName_withMapPath c text
    unfold sanitize
    rw [hr, hd]
    exact hc
  · exact fun _ _ hc => hc
  · exact fun _ _ hc => hc
  · intro c d _
    exact Identifier.sanitize_sanitize d c.rootName.text
  · exact fun _ _ _ hc => hc

theorem Built.isValid_rootName {c : Settings} (h : c.Built) :
    Identifier.isValid c.dialect c.rootName.text = true := by
  rw [← h.sanitize_rootName]
  exact Identifier.isValid_sanitize ..

/-- The name of the root is an identifier. -/
theorem Built.isName_rootName {c : Settings} (h : c.Built) : c.rootName.IsName :=
  ⟨c.dialect, h.isValid_rootName⟩

end SchemaInference.Settings
