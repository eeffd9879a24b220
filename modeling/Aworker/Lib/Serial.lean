/-
  Aworker.Lib.Serial — calls that share a state, and the order they can be put in.

  A call is admitted (`enter`), takes steps on the shared state while others take theirs,
  and leaves with a value. `readOnly` calls may be inside together; any other call is
  admitted only when nobody is inside (`Admits`): what a readers/writer lock held from
  `enter` to `leave` guarantees, whoever enforces it.

  Also `Alone`, `serializes`, `inOrder_replay`.
-/

import Mathlib.Data.List.Nodup
import Aworker.Lib.Run

namespace Aworker.Lib

open List

/-- What an admitted call does: its first step, the later ones, the value it ends with. -/
structure Task (κ σ Λ ε β : Type) where
  enter : κ → σ → Λ × σ
  step : Λ → σ → ε → Option (Λ × σ)
  result : Λ → Option β

inductive Thread (Λ β : Type) where
  | waiting
  | inside (l : Λ)
  | done (b : β)

structure Sys (ι σ Λ β : Type) where
  shared : σ
  threads : ι → Thread Λ β := fun _ => .waiting
  holders : List ι := []

inductive SysEv (ι ε : Type) where
  | enter (i : ι)
  | work (i : ι) (e : ε)
  | leave (i : ι)

section
variable {ι κ σ Λ ε β : Type} (T : Task κ σ Λ ε β) (call : ι → κ) (readOnly : κ → Bool)

def Admits (s : Sys ι σ Λ β) : SysEv ι ε → Prop
  | .enter i => if readOnly (call i) then ∀ j ∈ s.holders, readOnly (call j) = true else s.holders = []
  | _ => True

instance (s : Sys ι σ Λ β) : ∀ e : SysEv ι ε, Decidable (Admits call readOnly s e)
  | .enter i => inferInstanceAs (Decidable (if readOnly (call i) then ∀ j ∈ s.holders, readOnly (call j) = true else s.holders = []))
  | .work _ _ => isTrue trivial
  | .leave _ => isTrue trivial

/-! ## Calls on their own -/

def soloStep (p : Λ × σ) (e : ε) : Option (Λ × σ) := T.step p.1 p.2 e

def solo (k : κ) (s : σ) (es : List ε) : Option (Λ × σ) := run (soloStep T) (T.enter k s) es

/-- On its own from `s`, call `k` can end with `b` and leave `t`. -/
def Alone (k : κ) (s : σ) (b : β) (t : σ) : Prop := ∃ es l, solo T k s es = some (l, t) ∧ T.result l = some b

inductive InOrder (s : σ) : List (ι × β) → σ → Prop
  | nil : InOrder s [] s
  | snoc {o : List (ι × β)} {m t : σ} {b : β} (i : ι) : InOrder s o m → Alone T (call i) m b t → InOrder s (o ++ [(i, b)]) t

/-- A call that only reads leaves the state alone, however far it has come. -/
def ReadsOnly (k : κ) : Prop := ∀ s es l t, solo T k s es = some (l, t) → t = s

variable {T call readOnly}

variable {t u : σ} {e : ε} {l l' : Λ}

theorem solo_snoc {k : κ} {s : σ} {es : List ε} (h : solo T k s es = some (l, t))
    (hs : T.step l t e = some (l', u)) : solo T k s (es ++ [e]) = some (l', u) :=
  run_append.mpr ⟨(l, t), h, run_cons.mpr ⟨(l', u), hs, rfl⟩⟩

/-! ## Who is inside -/

/-- The list of holders and the threads agree. -/
structure Consistent (s : Sys ι σ Λ β) : Prop where
  holds : ∀ i, i ∈ s.holders ↔ ∃ l, s.threads i = .inside l
  once : s.holders.Nodup

section
variable [DecidableEq ι] {s : Sys ι σ Λ β} {i : ι}

theorem Consistent.enter (h : Consistent s) (hw : s.threads i = .waiting) (l : Λ) (u : σ) :
    Consistent { shared := u, threads := Function.update s.threads i (.inside l), holders := i :: s.holders } := by
  have hni : i ∉ s.holders := by
    intro hi
    obtain ⟨l', hl'⟩ := (h.holds i).mp hi
    rw [hw] at hl'; cases hl'
  refine ⟨fun j => ?_, nodup_cons.mpr ⟨hni, h.once⟩⟩
  by_cases hj : j = i
  · subst hj; simp
  · simp [hj, h.holds]

theorem Consistent.work (h : Consistent s) (hi : s.threads i = .inside l) (l' : Λ) (u : σ) :
    Consistent { s with shared := u, threads := Function.update s.threads i (.inside l') } := by
  refine ⟨fun j => ?_, h.once⟩
  show j ∈ s.holders ↔ _
  rw [h.holds]
  by_cases hj : j = i
  · subst hj; simp [hi]
  · simp [hj]

theorem Consistent.leave (h : Consistent s) (b : β) :
    Consistent { s with threads := Function.update s.threads i (.done b), holders := s.holders.erase i } := by
  refine ⟨fun j => ?_, h.once.erase i⟩
  show j ∈ s.holders.erase i ↔ _
  rw [h.once.mem_erase_iff, h.holds]
  by_cases hj : j = i
  · subst hj; simp
  · simp [hj]

end

/-! ## The order of leaving -/

/-- `o` is the order the finished calls left in, `m` the state they leave one after the other;
    a call inside has come to where it would be on its own from `m`. -/
structure Ordered (call : ι → κ) (readOnly : κ → Bool) (T : Task κ σ Λ ε β) (s₀ : σ) (s : Sys ι σ Λ β)
    (o : List (ι × β)) (m : σ) : Prop where
  order : InOrder T call s₀ o m
  nodup : (o.map Prod.fst).Nodup
  done : ∀ i b, (i, b) ∈ o ↔ s.threads i = .done b
  holds : ∀ i, i ∈ s.holders ↔ ∃ l, s.threads i = .inside l
  once : s.holders.Nodup
  progress : ∀ i l, s.threads i = .inside l → ∃ es, solo T (call i) m es = some (l, s.shared)
  quiet : s.holders = [] → s.shared = m
  apart : (∀ i ∈ s.holders, readOnly (call i) = true) ∨ ∃ i, s.holders = [i]

variable {s₀ m : σ} {s s' : Sys ι σ Λ β} {o : List (ι × β)}

theorem Ordered.consistent (h : Ordered call readOnly T s₀ s o m) : Consistent s := ⟨h.holds, h.once⟩

theorem Ordered.start (s₀ : σ) : Ordered call readOnly T s₀ ({ shared := s₀ } : Sys ι σ Λ β) [] s₀ where
  order := .nil
  nodup := nodup_nil
  done := by simp
  holds := by simp
  once := nodup_nil
  progress := by simp
  quiet _ := rfl
  apart := Or.inl (by simp)

/-- With only readers inside, the state is the one the finished calls left. -/
theorem Ordered.unchanged (hr : ∀ k, readOnly k = true → ReadsOnly T k) (h : Ordered call readOnly T s₀ s o m)
    (ha : ∀ i ∈ s.holders, readOnly (call i) = true) : s.shared = m := by
  cases hh : s.holders with
  | nil => exact h.quiet hh
  | cons i is =>
    have hi : i ∈ s.holders := by simp [hh]
    obtain ⟨l, hl⟩ := (h.holds i).mp hi
    obtain ⟨es, hes⟩ := h.progress i l hl
    exact hr (call i) (ha i hi) m es l s.shared hes

variable {i : ι}

theorem Ordered.not_mem (h : Ordered call readOnly T s₀ s o m) (hi : ∀ b, s.threads i ≠ .done b) :
    i ∉ o.map Prod.fst := by
  intro hm
  obtain ⟨⟨j, b⟩, hb, rfl⟩ := mem_map.mp hm
  exact hi b ((h.done j b).mp hb)

theorem Ordered.readers (h : Ordered call readOnly T s₀ s o m) {j : ι} (hi : i ∈ s.holders) (hj : j ∈ s.holders) (hne : j ≠ i) :
    ∀ k ∈ s.holders, readOnly (call k) = true := by
  rcases h.apart with ha | ⟨x, hx⟩
  · exact ha
  · rw [hx] at hi hj
    exact absurd ((mem_singleton.mp hj).trans (mem_singleton.mp hi).symm) hne

variable [DecidableEq ι]

variable (T call) in
def sysStep (s : Sys ι σ Λ β) : SysEv ι ε → Option (Sys ι σ Λ β)
  | .enter i =>
    match s.threads i with
    | .waiting =>
      let p := T.enter (call i) s.shared
      some { shared := p.2, threads := Function.update s.threads i (.inside p.1), holders := i :: s.holders }
    | _ => none
  | .work i e =>
    match s.threads i with
    | .inside l => (T.step l s.shared e).map fun p =>
        { s with shared := p.2, threads := Function.update s.threads i (.inside p.1) }
    | _ => none
  | .leave i =>
    match s.threads i with
    | .inside l => (T.result l).map fun b =>
        { s with threads := Function.update s.threads i (.done b), holders := s.holders.erase i }
    | _ => none

theorem Ordered.enter (hr : ∀ k, readOnly k = true → ReadsOnly T k) (h : Ordered call readOnly T s₀ s o m)
    (hw : s.threads i = .waiting) (hq : Admits call readOnly s (SysEv.enter i : SysEv ι ε))
    (he : T.enter (call i) s.shared = (l, u)) :
    Ordered call readOnly T s₀ { shared := u, threads := Function.update s.threads i (.inside l), holders := i :: s.holders } o m := by
  have hcons := h.consistent.enter hw l u
  have hm : s.shared = m := by
    simp only [Admits] at hq
    split at hq
    · exact h.unchanged hr hq
    · exact h.quiet hq
  have hsolo : solo T (call i) m [] = some (l, u) := by rw [← hm]; simp [solo, he]
  -- whoever is inside already is a reader, and then so is the newcomer
  have hkeep : ∀ j ∈ s.holders, u = m := by
    intro j hj
    simp only [Admits] at hq
    split at hq
    · rename_i hsh
      exact hr (call i) hsh m [] l u hsolo
    · rw [hq] at hj; cases hj
  refine ⟨h.order, h.nodup, ?_, hcons.holds, hcons.once, ?_, by simp, ?_⟩
  · intro j b
    rw [h.done]
    by_cases hj : j = i
    · subst hj; simp [hw]
    · simp [hj]
  · intro j l' hl'
    by_cases hj : j = i
    · subst hj
      simp at hl'; subst hl'
      exact ⟨[], hsolo⟩
    · have hl : s.threads j = .inside l' := by simpa [hj] using hl'
      obtain ⟨es, hes⟩ := h.progress j l' hl
      rw [hm] at hes
      exact ⟨es, by simpa [hkeep j ((h.holds j).mpr ⟨l', hl⟩)] using hes⟩
  · simp only [Admits] at hq
    split at hq
    · rename_i hsh
      left
      intro j hj
      rcases mem_cons.mp hj with rfl | hj
      · exact hsh
      · exact hq j hj
    · exact Or.inr ⟨i, by simp [hq]⟩

theorem Ordered.work (hr : ∀ k, readOnly k = true → ReadsOnly T k) (h : Ordered call readOnly T s₀ s o m)
    (hi : s.threads i = .inside l) (hs : T.step l s.shared e = some (l', u)) :
    Ordered call readOnly T s₀ { s with shared := u, threads := Function.update s.threads i (.inside l') } o m := by
  obtain ⟨es, hes⟩ := h.progress i l hi
  have hsolo := solo_snoc hes hs
  have hih : i ∈ s.holders := (h.holds i).mpr ⟨l, hi⟩
  refine ⟨h.order, h.nodup, ?_, (h.consistent.work hi l' u).holds, h.once, ?_, fun he => ?_, h.apart⟩
  · intro j b
    rw [h.done]
    by_cases hj : j = i
    · subst hj; simp [hi]
    · simp [hj]
  · intro j k hk
    by_cases hj : j = i
    · subst hj
      simp at hk; subst hk
      exact ⟨_, hsolo⟩
    · have hl : s.threads j = .inside k := by simpa [hj] using hk
      have ha := h.readers hih ((h.holds j).mpr ⟨k, hl⟩) hj
      obtain ⟨fs, hfs⟩ := h.progress j k hl
      rw [h.unchanged hr ha] at hfs
      have hum : u = m := hr (call i) (ha i hih) m _ l' u hsolo
      exact ⟨fs, by simpa [hum] using hfs⟩
  · have he' : s.holders = [] := he
    rw [he'] at hih; cases hih

theorem Ordered.leave (hr : ∀ k, readOnly k = true → ReadsOnly T k) (h : Ordered call readOnly T s₀ s o m) {b : β}
    (hi : s.threads i = .inside l) (hb : T.result l = some b) :
    Ordered call readOnly T s₀ { s with threads := Function.update s.threads i (.done b), holders := s.holders.erase i }
      (o ++ [(i, b)]) s.shared := by
  obtain ⟨es, hes⟩ := h.progress i l hi
  have hih : i ∈ s.holders := (h.holds i).mpr ⟨l, hi⟩
  have hni : i ∉ o.map Prod.fst := h.not_mem (fun b' hb' => by rw [hi] at hb'; cases hb')
  have hcons := h.consistent.leave (i := i) b
  refine ⟨.snoc i h.order ⟨es, l, hes, hb⟩, ?_, ?_, hcons.holds, hcons.once, ?_, fun _ => rfl, ?_⟩
  · rw [map_append]
    exact h.nodup.append (nodup_singleton i) (by simpa using hni)
  · intro j c
    rw [mem_append, h.done]
    by_cases hj : j = i
    · subst hj; simp [hi, eq_comm]
    · simp [hj]
  · intro j k hk
    by_cases hj : j = i
    · subst hj; simp at hk
    · have hl : s.threads j = .inside k := by simpa [hj] using hk
      have ha := h.readers hih ((h.holds j).mpr ⟨k, hl⟩) hj
      obtain ⟨fs, hfs⟩ := h.progress j k hl
      have hsm := h.unchanged hr ha
      exact ⟨fs, by simpa [hsm] using hfs⟩
  · left
    intro j hj
    obtain ⟨hne, hj⟩ := h.once.mem_erase_iff.mp hj
    exact h.readers hih hj hne j hj

theorem enter_ok (h : sysStep T call s (.enter i) = some s') :
    s.threads i = .waiting ∧ ∃ l u, T.enter (call i) s.shared = (l, u) ∧
      s' = { shared := u, threads := Function.update s.threads i (.inside l), holders := i :: s.holders } := by
  cases ht : s.threads i with
  | waiting =>
    simp only [sysStep, ht, Option.some.injEq] at h
    exact ⟨rfl, _, _, rfl, h.symm⟩
  | inside l => simp [sysStep, ht] at h
  | done b => simp [sysStep, ht] at h

theorem work_ok (h : sysStep T call s (.work i e) = some s') :
    ∃ l l' u, s.threads i = .inside l ∧ T.step l s.shared e = some (l', u) ∧
      s' = { s with shared := u, threads := Function.update s.threads i (.inside l') } := by
  cases ht : s.threads i with
  | inside l =>
    simp only [sysStep, ht, Option.map_eq_some_iff] at h
    obtain ⟨⟨l', u⟩, hp, rfl⟩ := h
    exact ⟨l, l', u, rfl, hp, rfl⟩
  | waiting => simp [sysStep, ht] at h
  | done b => simp [sysStep, ht] at h

theorem leave_ok (h : sysStep T call s (.leave i) = some s') : ∃ l b, s.threads i = .inside l ∧ T.result l = some b ∧
      s' = { s with threads := Function.update s.threads i (.done b), holders := s.holders.erase i } := by
  cases ht : s.threads i with
  | inside l =>
    simp only [sysStep, ht, Option.map_eq_some_iff] at h
    obtain ⟨b, hb, rfl⟩ := h
    exact ⟨l, b, rfl, hb, rfl⟩
  | waiting => simp [sysStep, ht] at h
  | done b => simp [sysStep, ht] at h

theorem ordered_step (hr : ∀ k, readOnly k = true → ReadsOnly T k) (s : Sys ι σ Λ β) (e : SysEv ι ε) (s' : Sys ι σ Λ β)
    (h : ∃ o m, Ordered call readOnly T s₀ s o m) (hq : Admits call readOnly s e) (hs : sysStep T call s e = some s') :
    ∃ o m, Ordered call readOnly T s₀ s' o m := by
  obtain ⟨o, m, h⟩ := h
  cases e with
  | enter i =>
    obtain ⟨hw, l, u, he, rfl⟩ := enter_ok hs
    exact ⟨o, m, h.enter hr hw hq he⟩
  | work i e =>
    obtain ⟨l, l', u, hi, hp, rfl⟩ := work_ok hs
    exact ⟨o, m, h.work hr hi hp⟩
  | leave i =>
    obtain ⟨l, b, hi, hb, rfl⟩ := leave_ok hs
    exact ⟨_, _, h.leave hr hi hb⟩

/-- The calls of a run admitted as a readers/writer lock would give the values, and leave
    the state, of running those that have left one after the other in the order they left. -/
theorem serializes (readOnly : κ → Bool) (hr : ∀ k, readOnly k = true → ReadsOnly T k) {t : Sys ι σ Λ β} {es : List (SysEv ι ε)}
    (hrun : run (sysStep T call) { shared := s₀ } es = some t)
    (ha : Along (sysStep T call) (Admits call readOnly) { shared := s₀ } es) (hout : ∀ i l, t.threads i ≠ .inside l) :
    ∃ o : List (ι × β), (o.map Prod.fst).Nodup ∧ (∀ i b, (i, b) ∈ o ↔ t.threads i = .done b) ∧ InOrder T call s₀ o t.shared := by
  obtain ⟨o, m, h⟩ := run_inv (I := fun s => ∃ o m, Ordered call readOnly T s₀ s o m)
    (fun s e s' hI hq hs => ordered_step hr s e s' hI hq hs) ⟨[], s₀, Ordered.start s₀⟩ ha hrun
  have hempty : t.holders = [] := by
    refine eq_nil_iff_forall_not_mem.mpr fun i hi => ?_
    obtain ⟨l, hl⟩ := (h.holds i).mp hi
    exact hout i l hl
  refine ⟨o, h.nodup, h.done, ?_⟩
  rw [h.quiet hempty]
  exact h.order

omit [DecidableEq ι]

/-! ## Calls whose runs alone are a function -/

/-- The calls `ks` one after the other: their values, in order, and the state left. -/
def replay (exec : κ → σ → β × σ) : σ → List κ → List β × σ
  | s, [] => ([], s)
  | s, k :: ks =>
    let r := exec k s
    let rest := replay exec r.2 ks
    (r.1 :: rest.1, rest.2)

theorem replay_snoc (exec : κ → σ → β × σ) (s : σ) (ks : List κ) (k : κ) :
    replay exec s (ks ++ [k]) =
      ((replay exec s ks).1 ++ [(exec k (replay exec s ks).2).1], (exec k (replay exec s ks).2).2) := by
  induction ks generalizing s with
  | nil => rfl
  | cons x ks ih => simp [replay, ih]

variable {o : List (ι × β)}

/-- Calls that leave the state alone, before others. -/
theorem replay_unchanged {exec : κ → σ → β × σ} {s : σ} (ho : ∀ x ∈ o, exec (call x.1) s = (x.2, s)) (ks : List κ) :
    replay exec s (o.map (fun x => call x.1) ++ ks) = (o.map Prod.snd ++ (replay exec s ks).1, (replay exec s ks).2) := by
  induction o with
  | nil => rfl
  | cons x o ih =>
    have hx := ho x mem_cons_self
    have hrest := ih fun y hy => ho y (mem_cons_of_mem _ hy)
    simp [replay, hx, hrest]

/-- `abs` forgets what the calls' values do not depend on; `I` is what their runs alone keep. -/
theorem inOrder_replay {τ : Type} {abs : σ → τ} {exec : κ → τ → β × τ} {I : σ → Prop}
    (hx : ∀ k s b t, I s → Alone T k s b t → exec k (abs s) = (b, abs t) ∧ I t) {s : σ} (h0 : I s)
    (h : InOrder T call s o t) : replay exec (abs s) (o.map fun p => call p.1) = (o.map Prod.snd, abs t) ∧ I t := by
  induction h with
  | nil => exact ⟨rfl, h0⟩
  | snoc i _ hal ih =>
    obtain ⟨ho, hm⟩ := ih
    obtain ⟨he, ht⟩ := hx _ _ _ _ hm hal
    refine ⟨?_, ht⟩
    rw [map_append, map_singleton, replay_snoc, ho]
    simp [he]

end

end Aworker.Lib
