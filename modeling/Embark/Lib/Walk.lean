/-
Deterministic machines that emit events as they go, their walks, and programs that carry such a
machine out under a bound on its steps and take up the events into a result, which may fail. Two
programs for one machine see the same events.
-/
import Mathlib.Logic.Basic

namespace Embark

/-! ## Walks -/

section Walk

variable {σ ε : Type}

/-- `n` steps from `a` to `b` that emit the events `es`; a step may emit none. -/
inductive Walk (step : σ → Option (Option ε × σ)) : Nat → σ → List ε → σ → Prop
  | nil (a : σ) : Walk step 0 a [] a
  | silent {n : Nat} {a b c : σ} {es : List ε} : step a = some (none, b) → Walk step n b es c →
      Walk step (n + 1) a es c
  | emit {n : Nat} {a b c : σ} {e : ε} {es : List ε} :
      step a = some (some e, b) → Walk step n b es c → Walk step (n + 1) a (e :: es) c

namespace Walk

variable {step : σ → Option (Option ε × σ)} {n m : Nat} {a b c : σ} {es fs : List ε}

theorem append (h : Walk step n a es b) (h' : Walk step m b fs c) : Walk step (m + n) a (es ++ fs) c := by
  induction h with
  | nil => exact h'
  | silent hs _ ih => exact .silent hs (ih h')
  | emit hs _ ih => exact .emit hs (ih h')

/-- Two walks from one place to an end are the same. -/
theorem unique (h : Walk step n a es b) (hb : step b = none) : ∀ {m fs c}, Walk step m a fs c → step c = none →
    es = fs ∧ b = c := by
  induction h with
  | nil =>
    intro m fs c h' hc
    cases h' with
    | nil => exact ⟨rfl, rfl⟩
    | silent hs _ => exact absurd (hb.symm.trans hs) (by simp)
    | emit hs _ => exact absurd (hb.symm.trans hs) (by simp)
  | silent hs _ ih =>
    intro m fs c h' hc
    cases h' with
    | nil => exact absurd (hc.symm.trans hs) (by simp)
    | silent hs' h' =>
      obtain ⟨-, rfl⟩ := Prod.mk.inj (Option.some.inj (hs.symm.trans hs'))
      exact ih hb h' hc
    | emit hs' _ => exact absurd (hs.symm.trans hs') (by simp)
  | emit hs _ ih =>
    intro m fs c h' hc
    cases h' with
    | nil => exact absurd (hc.symm.trans hs) (by simp)
    | silent hs' _ => exact absurd (hs.symm.trans hs') (by simp)
    | emit hs' h' =>
      obtain ⟨he, rfl⟩ := Prod.mk.inj (Option.some.inj (hs.symm.trans hs'))
      obtain ⟨rfl, hbc⟩ := ih hb h' hc
      exact ⟨by rw [Option.some.inj he], hbc⟩

end Walk

end Walk

/-! ## Programs for a machine -/

section Runs

variable {σ ε γ κ : Type}

/-- At places with the property `inside`, which the steps keep, `run` takes the steps of the machine
and takes up their events by `take`. It ends with `.error stop` when the steps are used up. -/
structure Runs (step : σ → Option (Option ε × σ)) (inside : σ → Prop) (take : γ → ε → Except κ γ)
    (stop : κ) (run : Nat → σ → γ → Except κ γ) : Prop where
  keeps : ∀ {a e b}, inside a → step a = some (e, b) → inside b
  zero : ∀ a c, run 0 a c = .error stop
  ends : ∀ {n a c}, inside a → step a = none → run (n + 1) a c = .ok c
  silent : ∀ {n a b c}, inside a → step a = some (none, b) → run (n + 1) a c = run n b c
  emit : ∀ {n a b c e}, inside a → step a = some (some e, b) → run (n + 1) a c = take c e >>= run n b

namespace Runs

variable {step : σ → Option (Option ε × σ)} {inside : σ → Prop} {take : γ → ε → Except κ γ} {stop : κ}
  {run : Nat → σ → γ → Except κ γ} {n k : Nat} {a b : σ} {c c' : γ} {es : List ε}

/-- A run over a walk that ends takes up its events. -/
theorem eq_foldlM (h : Runs step inside take stop run) (hw : Walk step k a es b) (hb : step b = none) :
    ∀ {n c}, inside a → k < n → run n a c = es.foldlM take c := by
  induction hw with
  | nil =>
    intro n c ha hn
    obtain ⟨n, rfl⟩ := Nat.exists_eq_add_one_of_ne_zero (Nat.ne_of_gt hn)
    exact h.ends ha hb
  | silent hs _ ih =>
    intro n c ha hn
    obtain ⟨n, rfl⟩ := Nat.exists_eq_add_one_of_ne_zero (Nat.ne_of_gt (Nat.zero_lt_of_lt hn))
    rw [h.silent ha hs]
    exact ih hb (h.keeps ha hs) (Nat.lt_of_succ_lt_succ hn)
  | emit hs _ ih =>
    intro n c ha hn
    obtain ⟨n, rfl⟩ := Nat.exists_eq_add_one_of_ne_zero (Nat.ne_of_gt (Nat.zero_lt_of_lt hn))
    rw [h.emit ha hs, List.foldlM_cons]
    congr 1
    funext c'
    exact ih hb (h.keeps ha hs) (Nat.lt_of_succ_lt_succ hn)

/-- A run with a result has walked to an end. -/
theorem exists_walk (h : Runs step inside take stop run) : ∀ {n a c}, inside a → run n a c = .ok c' →
    ∃ k es b, k < n ∧ Walk step k a es b ∧ step b = none
  | 0, a, c, _, hrun => by
    rw [h.zero] at hrun
    cases hrun
  | n + 1, a, c, ha, hrun => by
    rcases hs : step a with _ | ⟨e, b⟩
    · exact ⟨0, [], a, Nat.succ_pos n, .nil a, hs⟩
    · have hb := h.keeps ha hs
      cases e with
      | none =>
        rw [h.silent ha hs] at hrun
        obtain ⟨k, es, z, hk, hw, hz⟩ := exists_walk h hb hrun
        exact ⟨k + 1, es, z, Nat.succ_lt_succ hk, .silent hs hw, hz⟩
      | some e =>
        rw [h.emit ha hs] at hrun
        rcases ht : take c e with x | c₁
        · rw [ht] at hrun
          cases hrun
        · rw [ht] at hrun
          obtain ⟨k, es, z, hk, hw, hz⟩ := exists_walk h hb hrun
          exact ⟨k + 1, e :: es, z, Nat.succ_lt_succ hk, .emit hs hw, hz⟩

/-- A run fails in taking up an event, or for want of steps. -/
theorem error_cases (h : Runs step inside take stop run) {x : κ} : ∀ {n a c}, inside a → run n a c = .error x →
    x = stop ∨ ∃ c e, take c e = .error x
  | 0, a, c, _, hrun => by
    rw [h.zero] at hrun
    exact .inl (Except.error.inj hrun).symm
  | n + 1, a, c, ha, hrun => by
    rcases hs : step a with _ | ⟨e, b⟩
    · rw [h.ends ha hs] at hrun
      cases hrun
    · have hb := h.keeps ha hs
      cases e with
      | none =>
        rw [h.silent ha hs] at hrun
        exact error_cases h hb hrun
      | some e =>
        rw [h.emit ha hs] at hrun
        rcases ht : take c e with y | c₁
        · rw [ht] at hrun
          obtain rfl := Except.error.inj hrun
          exact .inr ⟨c, e, ht⟩
        · rw [ht] at hrun
          exact error_cases h hb hrun

end Runs

end Runs

end Embark
