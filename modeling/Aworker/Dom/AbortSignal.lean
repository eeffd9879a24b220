/-
  Aworker.Dom.AbortSignal — abort signals that follow others (lib/dom/abort_signal.js,
  lib/dom/abort_controller.js).

  A signal is aborted by its controller, or by the listener that `createFollowingSignal` adds to
  another signal. A following signal has no controller. Listeners that are not of this kind are
  not modelled.

  `follow_agrees`: whatever is done later, a following signal is aborted exactly if the signal that
  it follows is.
-/

import Mathlib
import Aworker.Lib.Run

namespace Aworker.Dom

open Aworker.Lib List Option

/-! ## The signals -/

structure Signal where
  aborted : Bool := false
  /-- it is the signal of an `AbortController` -/
  controlled : Bool := false
  /-- the following signals that its `abort` listeners abort, in the order of the listeners -/
  followers : List Nat := []

variable {roots : List Nat} {f a b : Nat} {e : Event}

namespace Signal

abbrev Signals := List Signal

def isAborted (l : Signals) (s : Nat) : Bool := (l[s]?).elim false Signal.aborted

def followersOf (l : Signals) (s : Nat) : List Nat := (l[s]?).elim [] Signal.followers

def isControlled (l : Signals) (s : Nat) : Bool := (l[s]?).elim false Signal.controlled

/-- `signal[abort_signal_aborted_symbol] = true` -/
def mark (l : Signals) (s : Nat) : Signals := l.modify s fun sig => { sig with aborted := true }

/-- A listener is called for every follower; the followers of a signal are younger than it. -/
def abortSignal : Nat → Signals → Nat → Signals
  | 0, l, _ => l
  | fuel + 1, l, s => if isAborted l s then l else (followersOf l s).foldl (abortSignal fuel) (mark l s)

/-- `createAbortSignal`, and who holds it. -/
def createAbortSignal (controlled : Bool) (l : Signals) : Signals := l ++ [{ controlled := controlled }]

/-- The new signal is the last one. -/
def createFollowingSignal (signal : Option Nat) (l : Signals) : Signals :=
  let following := l.length
  let l := createAbortSignal false l
  match signal with
  | none => l
  | some s =>
    if isAborted l s then abortSignal l.length l following
    else l.modify s fun sig => { sig with followers := sig.followers ++ [following] }

inductive Event where
  /-- `new AbortController()` -/
  | controller
  | follow (signal : Option Nat)
  /-- `controller.abort()` -/
  | abort (s : Nat)

def step (l : Signals) : Event → Option Signals
  | .controller => some (createAbortSignal true l)
  | .follow none => some (createFollowingSignal none l)
  | .follow (some s) => if s < l.length then some (createFollowingSignal (some s) l) else none
  | .abort s => if isControlled l s then some (abortSignal l.length l s) else none

/-- They are aborted together, whatever happens. -/
def Agree (l : Signals) (a b : Nat) : Prop := ∀ events l', run step l events = some l' → isAborted l' a = isAborted l' b

/-! ## What abort reaches -/

variable {l l' l'' : Signals} {s x : Nat}

theorem mark_length (l : Signals) (s : Nat) : (mark l s).length = l.length := length_modify ..

theorem mark_getElem? (l : Signals) (s x : Nat) : (mark l s)[x]? = if s = x then (l[x]?).map fun sig => { sig with aborted := true } else l[x]? := by
  rw [mark, getElem?_modify]
  split
  · rfl
  · exact map_id_apply

theorem followersOf_mark (l : Signals) (s x : Nat) : followersOf (mark l s) x = followersOf l x := by
  rw [followersOf, followersOf, mark_getElem?]
  split
  · cases l[x]? <;> rfl
  · rfl

theorem isControlled_mark (l : Signals) (s x : Nat) : isControlled (mark l s) x = isControlled l x := by
  rw [isControlled, isControlled, mark_getElem?]
  split
  · cases l[x]? <;> rfl
  · rfl

theorem isAborted_mark (hs : s < l.length) (x : Nat) : isAborted (mark l s) x = (decide (x = s) || isAborted l x) := by
  rw [isAborted, isAborted, mark_getElem?]
  by_cases hx : s = x
  · subst hx
    simp [getElem?_eq_getElem hs]
  · simp [hx, Ne.symm hx]

/-- What aborting the signals `roots` does, one after the other. -/
structure Aborts (roots : List Nat) (l l' : Signals) : Prop where
  length : l'.length = l.length
  followers : ∀ x, followersOf l' x = followersOf l x
  controlled : ∀ x, isControlled l' x = isControlled l x
  mono : ∀ x, isAborted l x = true → isAborted l' x = true
  root : ∀ x ∈ roots, x < l.length → isAborted l' x = true
  /-- a signal that is aborted now has aborted its followers -/
  closed : ∀ x, isAborted l x = false → isAborted l' x = true → ∀ f ∈ followersOf l x, f < l.length → isAborted l' f = true
  cause : ∀ x, isAborted l x = false → isAborted l' x = true → x ∈ roots ∨ ∃ y, x ∈ followersOf l y ∧ isAborted l' y = true

theorem Aborts.refl (h : ∀ x ∈ roots, x < l.length → isAborted l x = true) : Aborts roots l l where
  length := rfl
  followers _ := rfl
  controlled _ := rfl
  mono _ hx := hx
  root := h
  closed _ hno hyes := absurd (hno.symm.trans hyes) Bool.false_ne_true
  cause _ hno hyes := absurd (hno.symm.trans hyes) Bool.false_ne_true

theorem Aborts.cons (h : Aborts [s] l l') (h' : Aborts roots l' l'') : Aborts (s :: roots) l l'' where
  length := h'.length.trans h.length
  followers x := (h'.followers x).trans (h.followers x)
  controlled x := (h'.controlled x).trans (h.controlled x)
  mono x hx := h'.mono x (h.mono x hx)
  root x hx hlt := by
    rcases mem_cons.mp hx with rfl | hx
    · exact h'.mono x (h.root x mem_cons_self hlt)
    · exact h'.root x hx (h.length ▸ hlt)
  closed x hno hyes f hf hlt := by
    cases hx : isAborted l' x with
    | true => exact h'.mono f (h.closed x hno hx f hf hlt)
    | false => exact h'.closed x hx hyes f (h.followers x ▸ hf) (h.length ▸ hlt)
  cause x hno hyes := by
    cases hx : isAborted l' x with
    | true =>
      rcases h.cause x hno hx with hroot | ⟨y, hy, hab⟩
      · exact Or.inl (mem_singleton.mp hroot ▸ mem_cons_self)
      · exact Or.inr ⟨y, hy, h'.mono y hab⟩
    | false =>
      rcases h'.cause x hx hyes with hroot | ⟨y, hy, hab⟩
      · exact Or.inl (mem_cons_of_mem s hroot)
      · exact Or.inr ⟨y, h.followers y ▸ hy, hab⟩

theorem Aborts.of_mark (hs : s < l.length) (h : Aborts (followersOf l s) (mark l s) l') : Aborts [s] l l' where
  length := h.length.trans (mark_length l s)
  followers x := (h.followers x).trans (followersOf_mark l s x)
  controlled x := (h.controlled x).trans (isControlled_mark l s x)
  mono x hx := h.mono x (by rw [isAborted_mark hs, hx, Bool.or_true])
  root x hx _ := by
    rw [mem_singleton.mp hx]
    exact h.mono s (by rw [isAborted_mark hs, decide_eq_true rfl, Bool.true_or])
  closed x hxno hyes f hf hlt := by
    by_cases hx : x = s
    · rw [hx] at hf
      exact h.root f hf (mark_length l s ▸ hlt)
    · have hmark : isAborted (mark l s) x = false := by simp [isAborted_mark hs, hx, hxno]
      exact h.closed x hmark hyes f (followersOf_mark l s x ▸ hf) (mark_length l s ▸ hlt)
  cause x hxno hyes := by
    by_cases hx : x = s
    · exact Or.inl (mem_singleton.mpr hx)
    · have hmark : isAborted (mark l s) x = false := by simp [isAborted_mark hs, hx, hxno]
      rcases h.cause x hmark hyes with hroot | ⟨y, hy, hab⟩
      · exact Or.inr ⟨s, hroot, h.mono s (by rw [isAborted_mark hs, decide_eq_true rfl, Bool.true_or])⟩
      · exact Or.inr ⟨y, followersOf_mark l s y ▸ hy, hab⟩

/-- Followers are younger, so that the depth is bounded by the number of signals. -/
theorem abortSignal_aborts (fuel : Nat) (hlater : ∀ x, ∀ f ∈ followersOf l x, x < f) (hfuel : l.length ≤ fuel + s) :
    Aborts [s] l (abortSignal fuel l s) := by
  induction fuel generalizing l s with
  | zero =>
    refine Aborts.refl fun x hx hlt => ?_
    rw [mem_singleton.mp hx] at hlt
    omega
  | succ fuel ih =>
    rw [abortSignal]
    split
    · next hab =>
      refine Aborts.refl fun x hx _ => ?_
      rw [mem_singleton.mp hx]
      exact hab
    · next hab =>
      by_cases hs : s < l.length
      · refine Aborts.of_mark hs ?_
        -- the listeners run on what the ones before have left
        have hall : ∀ (fs : List Nat) (m : Signals), (∀ f ∈ fs, s < f) → (∀ x, ∀ f ∈ followersOf m x, x < f) → m.length = l.length →
            Aborts fs m (fs.foldl (abortSignal fuel) m) := by
          intro fs
          induction fs with
          | nil =>
            intro m _ _ _
            exact Aborts.refl (by simp)
          | cons f fs ihfs =>
            intro m hfs hm hlen
            have hf := forall_mem_cons.mp hfs
            have hone := ih (l := m) (s := f) hm (by have := hf.1; omega)
            have hrest := ihfs (abortSignal fuel m f) hf.2 (fun x g hg => hm x g (hone.followers x ▸ hg)) (hone.length.trans hlen)
            exact hone.cons hrest
        exact hall _ _ (hlater s) (fun x f hf => hlater x f (followersOf_mark l s x ▸ hf)) (mark_length l s)
      · have hnone : l[s]? = none := getElem?_eq_none (Nat.le_of_not_lt hs)
        have hmark : mark l s = l := by
          rw [mark, modify_eq_self (Nat.le_of_not_lt hs)]
        rw [hmark, followersOf, hnone]
        refine Aborts.refl fun x hx hlt => ?_
        rw [mem_singleton.mp hx] at hlt
        exact absurd hlt hs

theorem abortSignal_length (fuel : Nat) (l : Signals) (s : Nat) : (abortSignal fuel l s).length = l.length := by
  induction fuel generalizing l s with
  | zero => rfl
  | succ fuel ih =>
    rw [abortSignal]
    split
    · rfl
    · have hfold : ∀ (fs : List Nat) (m : Signals), (fs.foldl (abortSignal fuel) m).length = m.length := by
        intro fs
        induction fs with
        | nil => exact fun _ => rfl
        | cons f fs ihfs => exact fun m => (ihfs (abortSignal fuel m f)).trans (ih m f)
      exact (hfold _ _).trans (mark_length l s)

/-! ## What holds of all signals -/

structure Sound (l : Signals) : Prop where
  later : ∀ x, ∀ f ∈ followersOf l x, x < f ∧ f < l.length
  only : ∀ x y f, f ∈ followersOf l x → f ∈ followersOf l y → x = y
  free : ∀ x, ∀ f ∈ followersOf l x, isControlled l f = false
  same : ∀ x, ∀ f ∈ followersOf l x, isAborted l f = isAborted l x

theorem Sound.abort (h : Sound l) (hroot : ∀ x, s ∉ followersOf l x) (ha : Aborts [s] l l') : Sound l' where
  later x f hf := ha.length ▸ h.later x f (ha.followers x ▸ hf)
  only x y f hx hy := h.only x y f (ha.followers x ▸ hx) (ha.followers y ▸ hy)
  free x f hf := (ha.controlled f).trans (h.free x f (ha.followers x ▸ hf))
  same x f hf := by
    rw [ha.followers x] at hf
    rw [Bool.eq_iff_iff]
    constructor
    · intro hyes
      cases hno : isAborted l f with
      | true => exact ha.mono x ((h.same x f hf).symm.trans hno)
      | false =>
        rcases ha.cause f hno hyes with hs | ⟨y, hy, hab⟩
        · exact absurd (mem_singleton.mp hs ▸ hf) (hroot x)
        · exact h.only y x f hy hf ▸ hab
    · intro hyes
      cases hno : isAborted l x with
      | true => exact ha.mono f ((h.same x f hf).trans hno)
      | false => exact ha.closed x hno hyes f hf (h.later x f hf).2

theorem Sound.aborts (h : Sound l) (s : Nat) : Aborts [s] l (abortSignal l.length l s) :=
  abortSignal_aborts l.length (fun x f hf => (h.later x f hf).1) (by omega)

theorem create_getElem? (c : Bool) (l : Signals) (x : Nat) (hx : x ≠ l.length) : (createAbortSignal c l)[x]? = l[x]? := by
  rw [createAbortSignal, getElem?_append]
  split
  · rfl
  · rw [getElem?_eq_none (by simp; omega), getElem?_eq_none (by omega)]

theorem create_last (c : Bool) (l : Signals) : (createAbortSignal c l)[l.length]? = some { controlled := c } := getElem?_concat_length ..

theorem create_followers (c : Bool) (l : Signals) (x : Nat) : followersOf (createAbortSignal c l) x = followersOf l x := by
  rw [followersOf, followersOf]
  by_cases hx : x = l.length
  · rw [hx, create_last, getElem?_eq_none (Nat.le_refl _)]
    rfl
  · rw [create_getElem? c l x hx]

theorem create_isAborted (c : Bool) (l : Signals) (x : Nat) : isAborted (createAbortSignal c l) x = isAborted l x := by
  rw [isAborted, isAborted]
  by_cases hx : x = l.length
  · rw [hx, create_last, getElem?_eq_none (Nat.le_refl _)]
    rfl
  · rw [create_getElem? c l x hx]

theorem create_isControlled (c : Bool) (l : Signals) {x : Nat} (hx : x < l.length) : isControlled (createAbortSignal c l) x = isControlled l x := by
  rw [isControlled, isControlled, create_getElem? c l x (Nat.ne_of_lt hx)]

theorem create_length (c : Bool) (l : Signals) : (createAbortSignal c l).length = l.length + 1 := length_append ..

theorem Sound.create (h : Sound l) (c : Bool) : Sound (createAbortSignal c l) where
  later x f hf := by
    rw [create_followers] at hf
    obtain ⟨hlt, hlen⟩ := h.later x f hf
    exact ⟨hlt, by rw [create_length]; omega⟩
  only x y f hx hy := h.only x y f (create_followers c l x ▸ hx) (create_followers c l y ▸ hy)
  free x f hf := by
    rw [create_followers] at hf
    rw [create_isControlled c l (h.later x f hf).2]
    exact h.free x f hf
  same x f hf := by
    rw [create_followers] at hf
    rw [create_isAborted, create_isAborted]
    exact h.same x f hf

/-! ## A following signal -/

theorem listen_spec (hs : s < l.length) (f : Nat) (x : Nat) :
    let l' := l.modify s fun sig => { sig with followers := sig.followers ++ [f] }
    followersOf l' x = (if x = s then followersOf l x ++ [f] else followersOf l x) ∧ isAborted l' x = isAborted l x ∧
      isControlled l' x = isControlled l x := by
  simp only [followersOf, isAborted, isControlled, getElem?_modify]
  by_cases hx : x = s
  · subst hx
    simp [getElem?_eq_getElem hs]
  · simp [hx, Ne.symm hx]

structure Grows (l l' : Signals) : Prop where
  followers : ∀ x, ∀ f ∈ followersOf l x, f ∈ followersOf l' x
  aborted : ∀ x, isAborted l x = true → isAborted l' x = true

theorem Aborts.grows (h : Aborts roots l l') : Grows l l' := ⟨fun x _ hf => (h.followers x).symm ▸ hf, h.mono⟩

theorem create_grows (c : Bool) (l : Signals) : Grows l (createAbortSignal c l) :=
  ⟨fun x _ hf => (create_followers c l x).symm ▸ hf, fun x hx => (create_isAborted c l x).trans hx⟩

theorem Grows.trans (h : Grows l l') (h' : Grows l' l'') : Grows l l'' :=
  ⟨fun x f hf => h'.followers x f (h.followers x f hf), fun x hx => h'.aborted x (h.aborted x hx)⟩

/-- The two are tied, or both aborted for ever. -/
def Tied (l : Signals) (s f : Nat) : Prop := f ∈ followersOf l s ∨ (isAborted l s = true ∧ isAborted l f = true)

theorem Tied.grows (h : Tied l s f) (hg : Grows l l') : Tied l' s f :=
  h.imp (hg.followers s f) fun hab => ⟨hg.aborted s hab.1, hg.aborted f hab.2⟩

theorem mem_followersOf_listen (hs : s < l.length) (f x y : Nat) :
    y ∈ followersOf (l.modify s fun sig => { sig with followers := sig.followers ++ [f] }) x ↔ y ∈ followersOf l x ∨ (x = s ∧ y = f) := by
  rw [(listen_spec hs f x).1]
  by_cases hx : x = s <;> simp [hx]

/-- A signal that follows none and has no controller may come to follow an earlier one, if neither is aborted or both are. -/
theorem Sound.listen (h : Sound l) (hs : s < l.length) (hf : s < f ∧ f < l.length) (hno : ∀ x, f ∉ followersOf l x)
    (hfree : isControlled l f = false) (hsame : isAborted l f = isAborted l s) :
    Sound (l.modify s fun sig => { sig with followers := sig.followers ++ [f] }) := by
  have hmem := mem_followersOf_listen hs f
  have hspec := listen_spec hs f
  refine ⟨fun x y hy => ?_, fun x x' y hx hx' => ?_, fun x y hy => ?_, fun x y hy => ?_⟩
  · rw [length_modify]
    rcases (hmem x y).mp hy with hy | ⟨rfl, rfl⟩
    · exact h.later x y hy
    · exact hf
  · rcases (hmem x y).mp hx with hold | ⟨rfl, rfl⟩
    · rcases (hmem x' y).mp hx' with hold' | ⟨rfl, rfl⟩
      · exact h.only x x' y hold hold'
      · exact absurd hold (hno x)
    · rcases (hmem x' _).mp hx' with hold' | ⟨rfl, -⟩
      · exact absurd hold' (hno x')
      · rfl
  · rw [(hspec y).2.2]
    rcases (hmem x y).mp hy with hy | ⟨rfl, rfl⟩
    · exact h.free x y hy
    · exact hfree
  · rw [(hspec y).2.1, (hspec x).2.1]
    rcases (hmem x y).mp hy with hy | ⟨rfl, rfl⟩
    · exact h.same x y hy
    · exact hsame

theorem listen_grows (hs : s < l.length) (f : Nat) : Grows l (l.modify s fun sig => { sig with followers := sig.followers ++ [f] }) :=
  ⟨fun x y hy => (mem_followersOf_listen hs f x y).mpr (Or.inl hy), fun x hx => (listen_spec hs f x).2.1.trans hx⟩

theorem createFollowingSignal_spec (h : Sound l) (hs : s < l.length) :
    Sound (createFollowingSignal (some s) l) ∧ Grows l (createFollowingSignal (some s) l) ∧ Tied (createFollowingSignal (some s) l) s l.length := by
  have hcreate := h.create false
  have hlen := create_length false l
  have hno : ∀ x, l.length ∉ followersOf (createAbortSignal false l) x := by
    intro x hf
    rw [create_followers] at hf
    exact Nat.lt_irrefl _ (h.later x _ hf).2
  unfold createFollowingSignal
  dsimp only
  split
  · next hab =>
    have ha := hcreate.aborts l.length
    exact ⟨hcreate.abort hno ha, (create_grows false l).trans ha.grows, Or.inr ⟨ha.mono s hab, ha.root _ mem_cons_self (by omega)⟩⟩
  · next hab =>
    have hsc : s < (createAbortSignal false l).length := by omega
    have hnew : isControlled (createAbortSignal false l) l.length = false ∧ isAborted (createAbortSignal false l) l.length = false := by
      rw [isControlled, isAborted, create_last]
      exact ⟨rfl, rfl⟩
    refine ⟨hcreate.listen hsc ⟨hs, by omega⟩ hno hnew.1 ?_, (create_grows false l).trans (listen_grows hsc l.length),
      Or.inl ((mem_followersOf_listen hsc _ _ _).mpr (Or.inr ⟨rfl, rfl⟩))⟩
    rw [hnew.2, Bool.eq_false_of_not_eq_true hab]

theorem createFollowingSignal_length (signal : Option Nat) (l : Signals) : (createFollowingSignal signal l).length = l.length + 1 := by
  have hlen := create_length false l
  cases signal with
  | none => exact hlen
  | some s =>
    simp only [createFollowingSignal]
    split
    · rw [abortSignal_length]
      exact hlen
    · rw [length_modify]
      exact hlen

theorem step_spec (h : Sound l) (hs : step l e = some l') : Sound l' ∧ Grows l l' := by
  cases e with
  | controller =>
    cases hs
    exact ⟨h.create true, create_grows true l⟩
  | follow signal =>
    cases signal with
    | none =>
      cases hs
      exact ⟨h.create false, create_grows false l⟩
    | some s =>
      simp only [step, ite_none_right_eq_some] at hs
      obtain ⟨hlt, hs⟩ := hs
      cases hs
      have hspec := createFollowingSignal_spec h hlt
      exact ⟨hspec.1, hspec.2.1⟩
  | abort s =>
    simp only [step, ite_none_right_eq_some] at hs
    obtain ⟨hc, hs⟩ := hs
    cases hs
    have ha := h.aborts s
    -- a signal with a controller follows none
    refine ⟨h.abort (fun x hf => ?_) ha, ha.grows⟩
    have hfree := h.free x s hf
    rw [hc] at hfree
    cases hfree

theorem step_length (hs : step l e = some l') : l.length ≤ l'.length := by
  cases e with
  | controller =>
    cases hs
    simp [create_length]
  | follow signal =>
    cases signal with
    | none =>
      cases hs
      simp [createFollowingSignal_length]
    | some s =>
      simp only [step, ite_none_right_eq_some] at hs
      obtain ⟨-, hs⟩ := hs
      cases hs
      simp [createFollowingSignal_length]
  | abort s =>
    simp only [step, ite_none_right_eq_some] at hs
    obtain ⟨-, hs⟩ := hs
    cases hs
    rw [abortSignal_length]

theorem sound_nil : Sound [] := ⟨fun _ _ hf => (nomatch hf), fun _ _ _ hf => (nomatch hf), fun _ _ hf => (nomatch hf), fun _ _ hf => (nomatch hf)⟩

theorem Tied.agree (h : Sound l) (ht : Tied l s f) : Agree l f s := by
  intro events l' hr
  have hinv := run_inv (I := fun l => Sound l ∧ Tied l s f) (fun l e l' hi _ hs =>
    ⟨(step_spec hi.1 hs).1, hi.2.grows (step_spec hi.1 hs).2⟩) ⟨h, ht⟩ (along_true _ _) hr
  rcases hinv.2 with hf | ⟨hs, hf⟩
  · exact hinv.1.same s f hf
  · rw [hs, hf]

/-- The signal that is made follows `s` from now on. -/
theorem follow_agrees (h : Sound l) (hs : s < l.length) : Agree (createFollowingSignal (some s) l) l.length s := by
  have hspec := createFollowingSignal_spec h hs
  exact hspec.2.2.agree hspec.1

theorem Agree.symm (h : Agree l a b) : Agree l b a := fun events l' hr => (h events l' hr).symm

theorem Agree.trans {c : Nat} (h : Agree l a b) (h' : Agree l b c) : Agree l a c := fun events l' hr => (h events l' hr).trans (h' events l' hr)

end Signal

end Aworker.Dom
