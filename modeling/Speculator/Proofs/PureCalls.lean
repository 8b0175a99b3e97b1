import Speculator.Pass.PureCall
import Speculator.Proofs.Ensures

/-!
# Calls of pure functions

How evaluating a call at compile time can end: without a result, with the result that the function gives, or with a
failure when the function raises an exception that its contract does not tolerate.
-/

namespace Speculator

variable {c : Contract} {limits : Limits} {args : List Value} {receiver : Option Value}

theorem Contract.call_of_evaluate {v} (h : c.evaluate limits none args = .ok (some v)) : c.call args = .ok v := by
  unfold Contract.evaluate at h
  extract_lets all at h
  split at h
  · cases h
  split at h
  · cases h
  · cases h
  split at h
  · rename_i hcall
    cases h
    exact hcall
  · split at h <;> cases h

theorem Contract.cause_of_evaluate {cause} (h : c.evaluate limits receiver args = .error cause) :
    ∃ fault, cause = .untolerated c.name fault := by
  unfold Contract.evaluate at h
  extract_lets all at h
  split at h
  · cases h
  split at h
  · rename_i fault _
    cases h
    exact ⟨fault, rfl⟩
  · cases h
  split at h
  · cases h
  · rename_i fault _
    split at h
    · cases h
    · cases h
      exact ⟨fault, rfl⟩

theorem PureCall.ensures_evaluate {e args keywords} {bad : Failure → Prop}
    {post : Option (Value × Expr) → State → Prop} {ctx s} (hnone : post none s)
    (hsome : ∀ values result new, keywords = [] → Expr.literals? args = some values →
      c.evaluate ctx.config.limits receiver values = .ok (some result) →
      ctx.config.limits.literal? result e.pos = some new → post (some (result, new)) s)
    (hbad : ∀ values fault, c.evaluate ctx.config.limits receiver values = .error (.untolerated c.name fault) →
      bad (.unlocated (.untolerated c.name fault))) :
    Visit.Ensures (PureCall.evaluate c receiver e args keywords) bad post ctx s := by
  unfold PureCall.evaluate
  simp only [Visit.ensures_config_bind]
  split
  · rename_i values hargs
    cases hresult : c.evaluate ctx.config.limits receiver values with
    | error cause =>
      obtain ⟨fault, rfl⟩ := Contract.cause_of_evaluate hresult
      exact hbad values fault hresult
    | ok r =>
      cases r with
      | none => exact hnone
      | some result =>
        change post ((ctx.config.limits.literal? result e.pos).map fun new => (result, new)) s
        cases hnew : ctx.config.limits.literal? result e.pos with
        | none => exact hnone
        | some new => exact hsome values result new rfl hargs hresult hnew
  · exact hnone

/-- No function of the catalog raises an exception that its contract does not tolerate. -/
structure Catalog.Tolerant (catalog : Catalog) (limits : Limits) : Prop where
  builtin : ∀ name c, catalog.builtin? name = some c → ∀ args cause, c.evaluate limits none args ≠ .error cause
  method : ∀ receiver name c, catalog.method? receiver.typeName name = some c →
    ∀ args cause, c.evaluate limits (some receiver) args ≠ .error cause

end Speculator
