/-
  Aworker.Lib.Run — runs of a machine whose step may be refused.

  `step s e = none` says that the machine cannot take `e` in `s` (the event is not
  enabled there, or the process stops). `run` is a whole schedule, `Reached` a state on
  the way, `Along Q` that every event of the schedule is taken in a state where `Q`
  allows it.

  - `run_history` / `run_history_along`: an invariant of a state and the events that led to it.
  - `run_inv`: what every allowed step keeps holds at the end of an allowed run.
  - `reached_iff_along` / `reached_iff_along_while`: when one step keeps a property exactly if
    `Q` allows it, the property holds all along a run exactly if every step is allowed.
  - `completes_of_measure`: a measure that every allowed step lowers bounds the runs.
  Also `run_simulates`, `run_map`.
-/

import Mathlib.Data.List.Basic

namespace Aworker.Lib

open List Option

variable {σ ε : Type} (step : σ → ε → Option σ)

def run : σ → List ε → Option σ
  | s, [] => some s
  | s, e :: es => (step s e).bind fun s' => run s' es

/-- `u` is a state of the run of `es` from `s`. -/
def Reached (s : σ) (es : List ε) (u : σ) : Prop := ∃ pre, pre <+: es ∧ run step s pre = some u

/-- Every event of `es`, taken from `s`, is allowed by `Q` in the state it is taken in. -/
def Along (Q : σ → ε → Prop) : σ → List ε → Prop
  | _, [] => True
  | s, e :: es => Q s e ∧ match step s e with
    | some s' => Along Q s' es
    | none => True

instance Along.decidable (Q : σ → ε → Prop) [∀ s e, Decidable (Q s e)] : ∀ s es, Decidable (Along step Q s es)
  | _, [] => isTrue trivial
  | s, e :: es =>
    have : Decidable (match step s e with | some s' => Along step Q s' es | none => True) :=
      match step s e with
      | some s' => Along.decidable Q s' es
      | none => isTrue trivial
    inferInstanceAs (Decidable (Q s e ∧ match step s e with | some s' => Along step Q s' es | none => True))

variable {step}

/-! ## Runs -/

@[simp] theorem run_nil (s : σ) : run step s [] = some s := rfl

theorem run_cons {s t : σ} {e : ε} {es : List ε} :
    run step s (e :: es) = some t ↔ ∃ u, step s e = some u ∧ run step u es = some t := by
  simp [run, bind_eq_some_iff]

theorem run_append {s t : σ} {es fs : List ε} :
    run step s (es ++ fs) = some t ↔ ∃ u, run step s es = some u ∧ run step u fs = some t := by
  induction es generalizing s with
  | nil => simp
  | cons e es ih =>
    simp only [cons_append, run_cons, ih]
    constructor
    · rintro ⟨u, hu, v, hv, ht⟩
      exact ⟨v, ⟨u, hu, hv⟩, ht⟩
    · rintro ⟨v, ⟨u, hu, hv⟩, ht⟩
      exact ⟨u, hu, v, hv, ht⟩

theorem reached_start (s : σ) (es : List ε) : Reached step s es s := ⟨[], nil_prefix, rfl⟩

theorem reached_cons {s u v : σ} {e : ε} {es : List ε} (hs : step s e = some u) (h : Reached step u es v) :
    Reached step s (e :: es) v := by
  obtain ⟨pre, hp, hr⟩ := h
  exact ⟨e :: pre, cons_prefix_cons.mpr ⟨rfl, hp⟩, run_cons.mpr ⟨u, hs, hr⟩⟩

theorem reached_cases {s v : σ} {e : ε} {es : List ε} (h : Reached step s (e :: es) v) :
    v = s ∨ ∃ u, step s e = some u ∧ Reached step u es v := by
  obtain ⟨pre, hp, hr⟩ := h
  cases pre with
  | nil => simp at hr; exact Or.inl hr.symm
  | cons x pre =>
    obtain ⟨rfl, hpre⟩ := cons_prefix_cons.mp hp
    obtain ⟨u, hu, hr⟩ := run_cons.mp hr
    exact Or.inr ⟨u, hu, pre, hpre, hr⟩

/-! ## Steps allowed along a run -/

variable {Q : σ → ε → Prop}

theorem along_cons {s : σ} {e : ε} {es : List ε} :
    Along step Q s (e :: es) ↔ Q s e ∧ ∀ s', step s e = some s' → Along step Q s' es := by
  simp only [Along]
  cases step s e with
  | none => simp
  | some u => simp

theorem along_true (s : σ) (es : List ε) : Along step (fun _ _ => True) s es := by
  induction es generalizing s with
  | nil => trivial
  | cons e es ih => exact along_cons.mpr ⟨trivial, fun s' _ => ih s'⟩

theorem along_mono {Q' : σ → ε → Prop} (h : ∀ s e, Q s e → Q' s e) {s : σ} {es : List ε} (ha : Along step Q s es) :
    Along step Q' s es := by
  induction es generalizing s with
  | nil => trivial
  | cons e es ih =>
    obtain ⟨hq, ha⟩ := along_cons.mp ha
    exact along_cons.mpr ⟨h s e hq, fun s' hs => ih (ha s' hs)⟩

theorem along_replicate {e : ε} (he : ∀ s, Q s e) (n : Nat) (s : σ) : Along step Q s (List.replicate n e) := by
  induction n generalizing s with
  | zero => trivial
  | succ n ih => exact along_cons.mpr ⟨he s, fun s' _ => ih s'⟩

/-- What an event may be does not depend on the state: then it is a matter of the schedule alone. -/
theorem along_iff_forall {p : ε → Prop} {s t : σ} {es : List ε} (hr : run step s es = some t) :
    Along step (fun _ e => p e) s es ↔ ∀ e ∈ es, p e := by
  induction es generalizing s with
  | nil => simp [Along]
  | cons e es ih =>
    obtain ⟨u, hu, hr⟩ := run_cons.mp hr
    rw [along_cons, forall_mem_cons]
    refine and_congr_right fun _ => ⟨fun h => (ih hr).mp (h u hu), fun h s' hs => ?_⟩
    obtain rfl : u = s' := Option.some.inj (hu.symm.trans hs)
    exact (ih hr).mpr h

/-! ## Invariants -/

/-- What each allowed step keeps of a state and the events so far holds at the end of a run. -/
theorem run_history_along {J : σ → List ε → Prop} (hstep : ∀ s es e s', J s es → Q s e → step s e = some s' → J s' (es ++ [e]))
    {s t : σ} {pre es : List ε} (h0 : J s pre) (ha : Along step Q s es) (hr : run step s es = some t) : J t (pre ++ es) := by
  induction es generalizing s pre with
  | nil => simp at hr; subst hr; simpa using h0
  | cons e es ih =>
    obtain ⟨hq, ha⟩ := along_cons.mp ha
    obtain ⟨u, hu, hr⟩ := run_cons.mp hr
    simpa using ih (hstep s pre e u h0 hq hu) (ha u hu) hr

theorem run_history {J : σ → List ε → Prop} (hstep : ∀ s es e s', J s es → step s e = some s' → J s' (es ++ [e])) {s t : σ}
    {pre es : List ε} (h0 : J s pre) (hr : run step s es = some t) : J t (pre ++ es) :=
  run_history_along (fun s es e s' hj _ hs => hstep s es e s' hj hs) h0 (along_true s es) hr

variable {I : σ → Prop}

theorem run_inv (hstep : ∀ s e s', I s → Q s e → step s e = some s' → I s') {s t : σ} {es : List ε} (h0 : I s)
    (ha : Along step Q s es) (hr : run step s es = some t) : I t := by
  induction es generalizing s with
  | nil => simp at hr; subst hr; exact h0
  | cons e es ih =>
    obtain ⟨hq, ha⟩ := along_cons.mp ha
    obtain ⟨u, hu, hr⟩ := run_cons.mp hr
    exact ih (hstep s e u h0 hq hu) (ha u hu) hr

/-- One step keeps `P` exactly if `Q` allows it: then `P` holds all along a run exactly
    if every step of the run is allowed. `I` is what the run's own assumptions `A` keep as
    long as `P` holds. -/
theorem reached_iff_along_while {P : σ → Prop} {A : σ → ε → Prop}
    (hI : ∀ s e s', I s → A s e → P s → P s' → step s e = some s' → I s')
    (hP : ∀ s e s', I s → A s e → P s → step s e = some s' → (P s' ↔ Q s e))
    {s t : σ} {es : List ε} (h0 : I s) (hp : P s) (ha : Along step A s es) (hr : run step s es = some t) :
    (∀ u, Reached step s es u → P u) ↔ Along step Q s es := by
  induction es generalizing s with
  | nil =>
    refine ⟨fun _ => trivial, fun _ u hu => ?_⟩
    obtain ⟨pre, hpre, hu⟩ := hu
    rw [prefix_nil.mp hpre] at hu
    simp at hu; subst hu; exact hp
  | cons e es ih =>
    obtain ⟨hA, ha⟩ := along_cons.mp ha
    obtain ⟨u, hu, hr⟩ := run_cons.mp hr
    have hPu := hP s e u h0 hA hp hu
    constructor
    · intro hall
      have hpu : P u := hall u (reached_cons hu (reached_start u es))
      refine along_cons.mpr ⟨hPu.mp hpu, fun s' hs => ?_⟩
      obtain rfl : u = s' := by rw [hu] at hs; exact Option.some.inj hs
      exact (ih (hI s e u h0 hA hp hpu hu) hpu (ha u hu) hr).mp fun v hv => hall v (reached_cons hu hv)
    · intro hal v hv
      obtain ⟨hq, hal⟩ := along_cons.mp hal
      rcases reached_cases hv with rfl | ⟨u', hu', hv⟩
      · exact hp
      · obtain rfl : u = u' := by rw [hu] at hu'; exact Option.some.inj hu'
        have hpu : P u := hPu.mpr hq
        exact (ih (hI s e u h0 hA hp hpu hu) hpu (ha u hu) hr).mpr (hal u hu) v hv

theorem reached_iff_along {P : σ → Prop} {A : σ → ε → Prop}
    (hI : ∀ s e s', I s → A s e → step s e = some s' → I s')
    (hP : ∀ s e s', I s → A s e → P s → step s e = some s' → (P s' ↔ Q s e))
    {s t : σ} {es : List ε} (h0 : I s) (hp : P s) (ha : Along step A s es) (hr : run step s es = some t) :
    (∀ u, Reached step s es u → P u) ↔ Along step Q s es :=
  reached_iff_along_while (fun s e s' hi hA _ _ => hI s e s' hi hA) hP h0 hp ha hr

/-- Along a run, one condition on its steps is as good as another. -/
theorem along_iff {A Q' : σ → ε → Prop} (hI : ∀ s e s', I s → A s e → Q s e → step s e = some s' → I s')
    (hQ : ∀ s e, I s → A s e → (Q s e ↔ Q' s e)) {s : σ} {es : List ε} (h0 : I s) (ha : Along step A s es) :
    Along step Q s es ↔ Along step Q' s es := by
  induction es generalizing s with
  | nil => exact Iff.rfl
  | cons e es ih =>
    obtain ⟨hA, ha⟩ := along_cons.mp ha
    rw [along_cons, along_cons, hQ s e h0 hA]
    refine and_congr_right fun hq => forall₂_congr fun s' hs => ?_
    exact ih (hI s e s' h0 hA ((hQ s e h0 hA).mpr hq) hs) (ha s' hs)

/-! ## Runs that end -/

variable (step) (Q) in
/-- Allowed runs are bounded in length, and can be continued until `done`. -/
def Completes (s : σ) (done : σ → Prop) : Prop :=
  ∃ bound, ∀ es t, run step s es = some t → Along step Q s es → es.length ≤ bound ∧ (done t ∨ ∃ e u, Q t e ∧ step t e = some u)

theorem completes_of_measure {done : σ → Prop} {m : σ → Nat} (hstep : ∀ s e s', I s → Q s e → step s e = some s' → I s')
    (hm : ∀ s e s', I s → Q s e → step s e = some s' → m s' < m s) (hgo : ∀ s, I s → done s ∨ ∃ e u, Q s e ∧ step s e = some u)
    {s : σ} (h0 : I s) : Completes step Q s done := by
  refine ⟨m s, fun es t hr ha => ⟨?_, hgo t (run_inv hstep h0 ha hr)⟩⟩
  induction es generalizing s with
  | nil => exact Nat.zero_le _
  | cons e es ih =>
    obtain ⟨hq, ha⟩ := along_cons.mp ha
    obtain ⟨u, hu, hr⟩ := run_cons.mp hr
    have hle := ih (hstep s e u h0 hq hu) hr (ha u hu)
    have hlt := hm s e u h0 hq hu
    simp only [length_cons]
    omega

/-! ## Runs of another machine -/

/-- Seen through `f`, each allowed step does nothing or is a step that `Q` allows. -/
theorem run_simulates {τ δ : Type} {step' : τ → δ → Option τ} {Q' : τ → δ → Prop} (f : σ → τ)
    (hstep : ∀ s e s', I s → Q s e → step s e = some s' → I s')
    (hsim : ∀ s e s', I s → Q s e → step s e = some s' → f s' = f s ∨ ∃ d, step' (f s) d = some (f s') ∧ Q' (f s) d)
    {s t : σ} {es : List ε} (h0 : I s) (ha : Along step Q s es) (hr : run step s es = some t) :
    ∃ ds, run step' (f s) ds = some (f t) ∧ Along step' Q' (f s) ds := by
  induction es generalizing s with
  | nil =>
    simp at hr; subst hr
    exact ⟨[], rfl, trivial⟩
  | cons e es ih =>
    obtain ⟨hq, ha⟩ := along_cons.mp ha
    obtain ⟨u, hu, hr⟩ := run_cons.mp hr
    obtain ⟨ds, hds, hal⟩ := ih (hstep s e u h0 hq hu) (ha u hu) hr
    rcases hsim s e u h0 hq hu with he | ⟨d, hd, hqd⟩
    · rw [he] at hds hal
      exact ⟨ds, hds, hal⟩
    · refine ⟨d :: ds, run_cons.mpr ⟨f u, hd, hds⟩, along_cons.mpr ⟨hqd, fun v hv => ?_⟩⟩
      rw [hd] at hv; cases hv
      exact hal

/-- Seen through `f`, every step is the other machine's step of the same event, refused or not. -/
theorem run_map {τ : Type} {step' : τ → ε → Option τ} {f : σ → τ} (hstep : ∀ s e s', I s → step s e = some s' → I s')
    (hmap : ∀ s e, I s → (step s e).map f = step' (f s) e) {s : σ} (h0 : I s) (es : List ε) :
    (run step s es).map f = run step' (f s) es := by
  induction es generalizing s with
  | nil => rfl
  | cons e es ih =>
    have he := hmap s e h0
    cases hs : step s e with
    | none =>
      rw [hs, map_none] at he
      simp only [run, hs, ← he, bind_none, map_none]
    | some u =>
      rw [hs, map_some] at he
      simp only [run, hs, ← he, bind_some]
      exact ih (hstep s e u h0 hs)

end Aworker.Lib
