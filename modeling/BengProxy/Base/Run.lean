import Mathlib.Tactic.Common

/-!
# Runs of labelled transition systems

A run is a finite sequence of labelled steps. An invariant that holds initially and is kept
by every step holds after every run, and a forward simulation turns every run of one system
into a run of the other one with the same labels.
-/

namespace BengProxy.Base

universe u v w

variable {σ : Type u} {τ : Type v} {l : Type w}

/-- `Run step s ls s'`: the steps labelled `ls` lead from `s` to `s'`. -/
inductive Run (step : σ → l → σ → Prop) (s : σ) : List l → σ → Prop where
  | nil : Run step s [] s
  | snoc {ls : List l} {s' s'' : σ} {a : l} :
      Run step s ls s' → step s' a s'' → Run step s (ls ++ [a]) s''

namespace Run

variable {step : σ → l → σ → Prop} {s s' : σ} {ls : List l}

theorem cons {a : l} {t : σ} (hs : step s a t) (h : Run step t ls s') :
    Run step s (a :: ls) s' := by
  induction h with
  | nil => exact .snoc .nil hs
  | snoc _ hs' ih => exact .snoc ih hs'

/-- The invariant rule. -/
theorem invariant {P : σ → Prop} (h : Run step s ls s') (h0 : P s)
    (hst : ∀ s a s', P s → step s a s' → P s') : P s' := by
  induction h with
  | nil => exact h0
  | snoc _ hs ih => exact hst _ _ _ ih hs

/-- There is such a run, and this holds after every one. -/
theorem exists_of {p q : σ → Prop} (h : ∃ s', Run step s ls s' ∧ p s')
    (hq : ∀ s', Run step s ls s' → p s' → q s') : ∃ s', Run step s ls s' ∧ q s' := by
  obtain ⟨s', hr, hp⟩ := h
  exact ⟨s', hr, hq s' hr hp⟩

/-- The rule of forward simulation: related states stay related, with the same labels. -/
theorem simulate {step' : τ → l → τ → Prop} {R : σ → τ → Prop} {t : τ}
    (h : Run step s ls s') (h0 : R s t)
    (hst : ∀ s a s' t, R s t → step s a s' → ∃ t', step' t a t' ∧ R s' t') :
    ∃ t', Run step' t ls t' ∧ R s' t' := by
  induction h with
  | nil => exact ⟨t, .nil, h0⟩
  | snoc _ hs ih =>
    obtain ⟨t', ht, hr⟩ := ih
    obtain ⟨t'', ht', hr'⟩ := hst _ _ _ _ hr hs
    exact ⟨t'', ht.snoc ht', hr'⟩

end Run
end BengProxy.Base
