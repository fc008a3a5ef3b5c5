import Mathlib.Tactic

/-! # Runs of events

A state that events change one after the other. If what holds of a state stays true in a step exactly when the step
meets a condition, it holds all along a run exactly when every step of the run meets it.
-/

namespace LedgerForge.EventRuns

open List

variable {σ ε : Type*} (step : σ → ε → σ) (init : σ)

def Always (holds : σ → Prop) (es : List ε) : Prop := ∀ before, before <+: es → holds (before.foldl step init)

def Meets (condition : σ → ε → Prop) (es : List ε) : Prop :=
  ∀ before e, before ++ [e] <+: es → condition (before.foldl step init) e

variable {step init} {holds : σ → Prop} {condition : σ → ε → Prop} {es : List ε} {e : ε}

theorem invariant (inv : σ → Prop) (hinit : inv init) (hstep : ∀ s e, inv s → inv (step s e)) (es : List ε) : inv (es.foldl step init) := by
  induction es using List.reverseRecOn with
  | nil => exact hinit
  | append_singleton es e ih =>
    rw [foldl_concat]
    exact hstep _ e ih

theorem always_concat : Always step init holds (es ++ [e]) ↔ Always step init holds es ∧ holds (step (es.foldl step init) e) := by
  constructor
  · intro h
    refine ⟨fun before hbefore => h before (hbefore.trans (prefix_append ..)),?_⟩
    simpa only [foldl_concat] using h (es ++ [e]) prefix_rfl
  · rintro ⟨h,hlast⟩ before hbefore
    rcases prefix_concat_iff.mp hbefore with rfl | hearlier
    · rwa [foldl_concat]
    · exact h before hearlier

theorem meets_concat : Meets step init condition (es ++ [e]) ↔
    Meets step init condition es ∧ condition (es.foldl step init) e := by
  constructor
  · intro h
    exact ⟨fun before e' hbefore => h before e' (hbefore.trans (prefix_append ..)),h es e prefix_rfl⟩
  · rintro ⟨h,hlast⟩ before e' hbefore
    rcases prefix_concat_iff.mp hbefore with heq | hearlier
    · obtain ⟨rfl,hlasts⟩ := append_inj' heq rfl
      cases hlasts
      exact hlast
    · exact h before e' hearlier

theorem always_iff_meets (inv : σ → Prop) (hinv : inv init) (hinvStep : ∀ s e, inv s → inv (step s e)) (hinit : holds init)
    (hstep : ∀ s e, inv s → holds s → (holds (step s e) ↔ condition s e)) (es : List ε) :
    Always step init holds es ↔ Meets step init condition es := by
  induction es using List.reverseRecOn with
  | nil =>
    refine ⟨fun _ before e hbefore => ?_,fun _ before hbefore => ?_⟩
    · simp at hbefore
    · rw [prefix_nil.mp hbefore]
      exact hinit
  | append_singleton es e ih =>
    rw [always_concat,meets_concat,← ih]
    exact and_congr_right fun h => hstep _ e (invariant inv hinv hinvStep es) (h es prefix_rfl)

end LedgerForge.EventRuns

namespace LedgerForge.Transitions

open Relation

variable {σ : Type*} {step : σ → σ → Prop} {s t : σ}

theorem invariant {inv : σ → Prop} (hstep : ∀ s t, inv s → step s t → inv t) (h : ReflTransGen step s t) (hs : inv s) :
    inv t := by
  induction h with
  | refl => exact hs
  | tail _ hlast ih => exact hstep _ _ ih hlast

theorem exists_final {inv : σ → Prop} (measure : σ → ℕ) (hstep : ∀ s t, inv s → step s t → inv t)
    (hless : ∀ s t, inv s → step s t → measure t < measure s) (hs : inv s) :
    ∃ t, ReflTransGen step s t ∧ ∀ u, ¬ step t u := by
  induction hn : measure s using Nat.strong_induction_on generalizing s with
  | _ n ih =>
    by_cases hfinal : ∃ t, step s t
    · obtain ⟨t,ht⟩ := hfinal
      obtain ⟨u,hu,hend⟩ := ih (measure t) (hn ▸ hless s t hs ht) (hstep s t hs ht) rfl
      exact ⟨u,.head ht hu,hend⟩
    · exact ⟨s,.refl,fun u hu => hfinal ⟨u,hu⟩⟩

end LedgerForge.Transitions
