/-
  Aworker.Lib.Framing — frames read off the front of a growing buffer.

  A `Framing` says what the front of a buffer holds: too little to tell (`more`), bytes
  that are no frame (`bad`), or a frame and the rest. Bytes that arrive later never
  change a verdict other than `more`. `drain` takes frames off as long as there are any.
  A `Receiver` buffers chunks and drains at its reads; `seen` is what had arrived at its
  last read, `late` what came after it.

  - `drain_encode` / `drain_prefix`: encoded values are drained as themselves, and any
    prefix of them as the values it holds completely (`complete`).
  Also `drain_append`, `rxRun_eq`, `head_encode`.
-/

import Mathlib.Data.List.Induction

namespace Aworker.Lib

open List

inductive Head (α β : Type) where
  | more
  | bad
  | frame (a : α) (rest : List β)

structure Framing (α β : Type) where
  head : List β → Head α β
  shorter : ∀ {xs a rest}, head xs = .frame a rest → rest.length < xs.length
  frame_append : ∀ {xs a rest} (ys : List β), head xs = .frame a rest → head (xs ++ ys) = .frame a (rest ++ ys)
  bad_append : ∀ {xs} (ys : List β), head xs = .bad → head (xs ++ ys) = .bad

namespace Framing

variable {α β γ : Type} (F : Framing α β)

def drain (xs : List β) : List α × List β :=
  match _h : F.head xs with
  | .frame a rest => (a :: (drain rest).1, (drain rest).2)
  | .more => ([], xs)
  | .bad => ([], xs)
termination_by xs.length
decreasing_by all_goals exact F.shorter ‹_›

/-! ## Draining -/

variable {xs : List β}

theorem drain_frame {a : α} {rest : List β} (h : F.head xs = .frame a rest) :
    F.drain xs = (a :: (F.drain rest).1, (F.drain rest).2) := by
  rw [drain]
  split
  · rename_i h'
    rw [h] at h'; injection h' with h1 h2; subst h1 h2; rfl
  · rename_i h'; rw [h] at h'; cases h'
  · rename_i h'; rw [h] at h'; cases h'

theorem drain_stop (h : ∀ a rest, F.head xs ≠ .frame a rest) : F.drain xs = ([], xs) := by
  rw [drain]
  split
  · rename_i h'; exact absurd h' (h _ _)
  · rfl
  · rfl

/-- Draining stops where no frame is at the front. -/
theorem head_drain (xs : List β) : ∀ a rest, F.head (F.drain xs).2 ≠ .frame a rest := by
  induction h : xs.length using Nat.strongRecOn generalizing xs with
  | _ n ih =>
    cases hx : F.head xs with
    | frame a rest =>
      rw [F.drain_frame hx]
      exact ih rest.length (h ▸ F.shorter hx) rest rfl
    | more =>
      have hs : ∀ a rest, F.head xs ≠ .frame a rest := fun a rest => by rw [hx]; simp
      rw [F.drain_stop hs]; exact hs
    | bad =>
      have hs : ∀ a rest, F.head xs ≠ .frame a rest := fun a rest => by rw [hx]; simp
      rw [F.drain_stop hs]; exact hs

theorem drain_drain (xs : List β) : F.drain (F.drain xs).2 = ([], (F.drain xs).2) := F.drain_stop (F.head_drain xs)

/-- Draining does not depend on where the input is cut. -/
theorem drain_append (xs ys : List β) :
    F.drain (xs ++ ys) =
      ((F.drain xs).1 ++ (F.drain ((F.drain xs).2 ++ ys)).1, (F.drain ((F.drain xs).2 ++ ys)).2) := by
  induction h : xs.length using Nat.strongRecOn generalizing xs with
  | _ n ih =>
    by_cases hx : ∃ a rest, F.head xs = .frame a rest
    · obtain ⟨a, rest, hx⟩ := hx
      rw [F.drain_frame hx, F.drain_frame (F.frame_append ys hx), ih rest.length (h ▸ F.shorter hx) rest rfl]
      simp
    · have hs : ∀ a rest, F.head xs ≠ .frame a rest := fun a rest e => hx ⟨a, rest, e⟩
      rw [F.drain_stop hs]; simp

/-- Draining what is left over after some input drains the same rest. -/
theorem drain_rest (xs ys : List β) : (F.drain ((F.drain xs).2 ++ ys)).2 = (F.drain (xs ++ ys)).2 := by
  rw [F.drain_append xs ys]

/-- Input that is no frame stays so, whatever follows. -/
theorem bad_drain (h : F.head (F.drain xs).2 = .bad) (ys : List β) : F.head (F.drain (xs ++ ys)).2 = .bad := by
  have hb := F.bad_append ys h
  rw [← F.drain_rest, F.drain_stop fun a rest => by rw [hb]; simp]
  exact hb

/-! ## Receivers -/

inductive RxEv (β : Type) where
  | chunk (xs : List β)
  | read

structure Receiver (α β : Type) where
  pending : List β
  got : List α

def rxStep (r : Receiver α β) : RxEv β → Receiver α β
  | .chunk xs => { r with pending := r.pending ++ xs }
  | .read => ⟨(F.drain r.pending).2, r.got ++ (F.drain r.pending).1⟩

def rxRun (evs : List (RxEv β)) : Receiver α β := evs.foldl F.rxStep ⟨[], []⟩

def split (evs : List (RxEv β)) : List β × List β :=
  evs.foldl (fun p e => match e with
    | .chunk xs => (p.1, p.2 ++ xs)
    | .read => (p.1 ++ p.2, [])) ([], [])

def seen (evs : List (RxEv β)) : List β := (split evs).1

def late (evs : List (RxEv β)) : List β := (split evs).2

def received (evs : List (RxEv β)) : List β := seen evs ++ late evs

theorem split_concat (evs : List (RxEv β)) (e : RxEv β) :
    split (evs ++ [e]) = match e with
      | .chunk xs => (seen evs, late evs ++ xs)
      | .read => (received evs, []) := by
  cases e <;> simp [split, seen, late, received]

@[simp] theorem received_chunk (evs : List (RxEv β)) (xs : List β) :
    received (evs ++ [.chunk xs]) = received evs ++ xs := by
  simp [received, seen, late, split_concat]

@[simp] theorem received_read (evs : List (RxEv β)) : received (evs ++ [.read]) = received evs := by
  simp [received, seen, late, split_concat]

@[simp] theorem rxRun_concat (evs : List (RxEv β)) (e : RxEv β) :
    F.rxRun (evs ++ [e]) = F.rxStep (F.rxRun evs) e := by simp [rxRun]

/-- A receiver holds the frames of what had arrived at its last read, and the bytes
    behind them. -/
theorem rxRun_eq (evs : List (RxEv β)) :
    F.rxRun evs = ⟨(F.drain (seen evs)).2 ++ late evs, (F.drain (seen evs)).1⟩ := by
  induction evs using List.reverseRecOn with
  | nil =>
    have : F.drain ([] : List β) = ([], []) := F.drain_stop fun a rest h => by have := F.shorter h; simp at this
    simp [rxRun, seen, late, split, this]
  | append_singleton evs e ih =>
    rw [F.rxRun_concat, ih]
    cases e with
    | chunk xs => simp [rxStep, seen, late, split_concat]
    | read =>
      have hd := F.drain_append (seen evs) (late evs)
      simp only [rxStep, seen, late, split_concat, received] at hd ⊢
      rw [hd]; simp

/-- The frames got and those still buffered are the frames of everything received. -/
theorem rxRun_drain (evs : List (RxEv β)) :
    (F.rxRun evs).got ++ (F.drain (F.rxRun evs).pending).1 = (F.drain (received evs)).1 ∧
      (F.drain (F.rxRun evs).pending).2 = (F.drain (received evs)).2 := by
  rw [rxRun_eq, received, F.drain_append (seen evs) (late evs)]
  exact ⟨rfl, rfl⟩

/-! ## Encoders -/

/-- `enc c` is a frame that reads back as `val c`, and no proper prefix of it is one. -/
structure Encodes (enc : γ → List β) (val : γ → α) (c : γ) : Prop where
  whole : ∀ ys, F.head (enc c ++ ys) = .frame (val c) ys
  part : ∀ xs, xs <+: enc c → xs ≠ enc c → F.head xs = .more

/-- The values of `cs` whose encodings lie completely inside `xs`, a prefix of them all. -/
def complete (enc : γ → List β) : List γ → List β → List γ
  | [], _ => []
  | c :: cs, xs => if (enc c).length ≤ xs.length then c :: complete enc cs (xs.drop (enc c).length) else []

variable {F} {enc : γ → List β} {val : γ → α}

variable {cs : List γ}

theorem drain_encode (h : ∀ c ∈ cs, F.Encodes enc val c) (ys : List β) :
    F.drain (cs.flatMap enc ++ ys) = (cs.map val ++ (F.drain ys).1, (F.drain ys).2) := by
  induction cs with
  | nil => simp
  | cons c cs ih =>
    have hc := (h c (by simp)).whole (cs.flatMap enc ++ ys)
    rw [flatMap_cons, append_assoc, F.drain_frame hc, ih fun d hd => h d (by simp [hd])]
    simp

/-- A prefix of encoded values, with `ys` to follow: it holds the first value completely,
    or only the beginning of one. -/
theorem head_encode (hnil : F.head [] = .more) (h : ∀ c ∈ cs, F.Encodes enc val c) {ys : List β}
    (hx : xs ++ ys = cs.flatMap enc) :
    (F.head xs = .more ∧ ∀ c ∈ cs.head?, xs.length < (enc c).length) ∨
    ∃ c ds zs, cs = c :: ds ∧ xs = enc c ++ zs ∧ F.head xs = .frame (val c) zs ∧ zs ++ ys = ds.flatMap enc := by
  cases cs with
  | nil =>
    obtain ⟨rfl, -⟩ := append_eq_nil_iff.mp hx
    exact Or.inl ⟨hnil, by simp⟩
  | cons c ds =>
    have hc := h c (by simp)
    rw [flatMap_cons] at hx
    by_cases hl : (enc c).length ≤ xs.length
    · obtain ⟨zs, rfl⟩ : enc c <+: xs :=
        prefix_of_prefix_length_le ⟨_, rfl⟩ ⟨ys, hx⟩ hl
      rw [append_assoc, append_right_inj] at hx
      exact Or.inr ⟨c, ds, zs, rfl, rfl, hc.whole zs, hx⟩
    · have hp : xs <+: enc c := prefix_of_prefix_length_le ⟨ys, hx⟩ ⟨_, rfl⟩ (by omega)
      refine Or.inl ⟨hc.part xs hp ?_, by simp; omega⟩
      rintro rfl
      exact hl (Nat.le_refl _)

/-- A prefix of encoded values is drained as the values it holds completely; what is left
    is the beginning of a frame. -/
theorem drain_prefix (hnil : F.head [] = .more) (h : ∀ c ∈ cs, F.Encodes enc val c) (hx : xs <+: cs.flatMap enc) :
    (F.drain xs).1 = (complete enc cs xs).map val ∧ F.head (F.drain xs).2 = .more := by
  induction cs generalizing xs with
  | nil =>
    have : xs = [] := by simpa using hx
    subst this
    rw [F.drain_stop fun a rest => by rw [hnil]; simp]
    exact ⟨rfl, hnil⟩
  | cons c cs ih =>
    obtain ⟨ys, hy⟩ := hx
    rcases head_encode hnil h hy with ⟨hm, hlt⟩ | ⟨c', ds, zs, he, rfl, hf, hz⟩
    · have hl : ¬ (enc c).length ≤ xs.length := by have := hlt c rfl; omega
      rw [F.drain_stop fun a rest => by rw [hm]; simp]
      simp [complete, hl, hm]
    · obtain ⟨rfl, rfl⟩ := List.cons.inj he
      obtain ⟨h1, h2⟩ := ih (fun d hd => h d (by simp [hd])) ⟨ys, hz⟩
      rw [F.drain_frame hf]
      simp [complete, h1, h2]

end Framing

end Aworker.Lib
