import Speculator.Proofs.Catalog
import Speculator.Proofs.Outcome.Statements
import Speculator.Proofs.Rewriting

/-!
# How optimizing a module ends

With a catalog whose functions only raise tolerated exceptions, visiting a module gives a module or one of two
failures.  A store of a function may have become one that cannot be analyzed; this does not happen in a settled
module. And the bound on the depth of the visits may be met.
-/

namespace Speculator

open Visit

variable {m : Module} {bad : Failure → Prop} {ctx : Context} {s : State}

/-- A module is kept as it is, or its body is visited in a scope with its variables. -/
theorem Module.ensures_visit_of_body {v : Visitor} {post : Module → State → Prop}
    (hsame : ∀ s', s.Logs s' → post m s')
    (hbody : ∀ vars, Ensures (v.body false m.body) bad
      (fun body s' => post ⟨if s'.needsSupport then importSupport body else body⟩ s') ctx
      { s with scope := { s.scope with vars := vars } }) : Ensures (m.visit v) bad post ctx s := by
  unfold Module.visit
  rw [ensures_config_bind]
  split
  · exact ensures_log_bind.mpr (.pure (hsame _ ⟨[_], rfl⟩))
  refine Visitor.ensures_ofBody_bind (fun s' hs => .pure (hsame s' hs)) fun vars _ => ?_
  dsimp only
  rw [ensures_modifyScope_bind]
  exact (hbody vars).bind fun body s' h => ensures_get_bind.mpr (.pure h)

theorem Module.ensures_visit (G : Regime) (m : Module) {n : Nat} (hn : m.depthBound G.config.limits ≤ n)
    (hctx : ctx.config = G.config) (hknown : s.known.values = []) (hcopied : s.scope.copied = [])
    (hs : G.sure → m.Settled G.config) : Ensures (m.visit (visitor n)) G.Allows (fun _ _ => True) ctx s := by
  have hholds : G.Holds (fun _ => True) ctx s :=
    ⟨hctx, fun _ _ => trivial, fun _ p hp => by simp [hknown] at hp, fun _ p hp => by simp [hcopied] at hp⟩
  have hdepth : Stmt.depthList G.height m.body ≤ n := Nat.le_trans (m.depth_le_bound G.config.limits) hn
  refine Module.ensures_visit_of_body (fun _ _ => trivial) fun vars => ?_
  have hstart : G.Holds (fun _ => True) ctx { s with scope := { s.scope with vars := vars } } := hholds.congr rfl rfl
  exact ((visitor_tame _).body (fun _ => .inr trivial) hstart false (fun _ => hdepth) hs).imp fun _ _ _ => trivial

theorem Config.catalog_override (c : Config) (entries : List (Value × Value)) :
    (c.override entries).catalog = c.catalog := by
  have hentry : ∀ (c : Config) entry, (c.setEntry entry).catalog = c.catalog := by
    intro c entry
    unfold setEntry
    split
    · unfold setFlag
      split <;> rfl
    · split
      · unfold setSize
        split <;> rfl
      · rfl
    · rfl
  unfold override
  induction entries generalizing c with
  | nil => rfl
  | cons entry entries ih => exact (ih (c.setEntry entry)).trans (hentry c entry)

def Regime.ofRun (c : Config) (m : Module) : Regime := .ofCode c (m.Settled c)

/-- The context in which a module is visited. -/
structure Context.Initial (ctx : Context) (config : Config) : Prop where
  config : ctx.config = config
  stage : ctx.stage = .generic
  enclosing : ctx.enclosing = []

/-- The state in which the visit of a module starts. -/
structure State.Initial (s : State) : Prop where
  scope : s.scope = { kind := .module, vars := {} }
  known : s.known = {}
  log : s.log = []
  support : s.needsSupport = false

/-- The visits of modules with their options. -/
abbrev Module.VisitEnsures (m : Module) (v : Visitor) (config : Config) (bad : Failure → Prop)
    (post : Module → State → Prop) : Prop :=
  ∀ ctx s, ctx.Initial (config.overriddenBy m) → s.Initial → Ensures (m.visit v) bad post ctx s

/-- What the visit of a module ensures holds of its report. -/
theorem Report.of_ensures {v : Visitor} {config : Config} {filename source} {report : Report}
    {post : Module → State → Prop} (hreport : optimizeWith v config filename source m = report)
    (h : m.VisitEnsures v config bad post) :
    match report.result with
    | .ok new => ∃ s, post new s ∧ (report.overrun = true ↔ .overrun ∈ s.log)
    | .error failure => bad failure := by
  have hvisit := h (m.context config filename source) m.start ⟨rfl, rfl, rfl⟩ ⟨rfl, rfl, rfl, rfl⟩
  subst hreport
  unfold optimizeWith
  cases hrun : m.visit v (m.context config filename source) m.start with
  | ok new s => exact ⟨s, hvisit.of_ok hrun, by simp [Report.ofResult]⟩
  | error failure s => exact hvisit.of_error hrun

/-- The bound of a module is not met unless calls are inlined. -/
theorem Module.ensures_initial (m : Module) {config} {n : Nat} (hn : m.depthBound config.limits ≤ n)
    (hctx : ctx.Initial config) (hs : s.Initial) :
    Ensures (m.visit (visitor n)) (Regime.ofRun config m).Allows (fun _ _ => True) ctx s :=
  m.ensures_visit _ hn hctx.config (by rw [hs.known]) (by rw [hs.scope]) And.right

/-- If the visits can only be too deep, optimizing without inlining succeeds. -/
theorem optimize_ok_of_tooDeep {config : Config} (filename : String) (source : Option String)
    {post : Module → State → Prop} (hinlining : (config.overriddenBy m).inlining = false)
    (h : ∀ n, m.VisitEnsures (visitor n) config TooDeep post) :
    ∃ new s, (optimize config filename source m).result = .ok new ∧ post new s ∧
      ((optimize config filename source m).overrun = true ↔ .overrun ∈ s.log) := by
  have hensures := Report.of_ensures (rfl : _ = optimize config filename source m) fun ctx s hctx hs =>
    (h _ ctx s hctx hs).and (m.ensures_initial (Nat.le_refl _) hctx hs)
  cases hresult : (optimize config filename source m).result with
  | ok new =>
    rw [hresult] at hensures
    obtain ⟨s, hpost, hoverrun⟩ := hensures
    exact ⟨new, s, rfl, hpost.1, hoverrun⟩
  | error failure =>
    rw [hresult] at hensures
    obtain ⟨hdeep, ⟨_, name, fault, hcause⟩ | ⟨_, target, line, rfl⟩ | ⟨hnot, _⟩⟩ := hensures
    · rw [TooDeep, hcause] at hdeep
      cases hdeep
    · cases hdeep
    · exact (hnot hinlining).elim

end Speculator
