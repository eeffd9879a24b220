/-
  Aworker.Lib.Utf8 — UTF-8 as a decoder that is fed byte by byte.

  `feeds` runs any machine that answers each input with some outputs. `feed` is the decoder:
  it keeps an incomplete sequence, replaces what cannot become one by U+FFFD, and looks at the
  byte that showed it once more. What is incomplete at the end is replaced as well.

  - `feeds_append`: feeding in pieces is feeding the whole.
  - `decode_encode`: what is encoded decodes to itself; ASCII octets always are
    (`exists_encode`).
  - `units_add_seen_le`: there are never more UTF-16 units than bytes.
  Also `decode_append_cons`.
-/

import Mathlib

namespace Aworker.Lib

open List

/-! ## Machines that are fed -/

section

variable {σ α β : Type} {f : σ → α → σ × List β}

variable (f) in
def feeds : σ → List α → σ × List β
  | s, [] => (s, [])
  | s, a :: as => ((feeds (f s a).1 as).1, (f s a).2 ++ (feeds (f s a).1 as).2)

@[simp] theorem feeds_nil (s : σ) : feeds f s [] = (s, []) := rfl

theorem feeds_cons (s : σ) (a : α) (as : List α) :
    feeds f s (a :: as) = ((feeds f (f s a).1 as).1, (f s a).2 ++ (feeds f (f s a).1 as).2) := rfl

theorem feeds_append (s : σ) (as bs : List α) :
    feeds f s (as ++ bs) = ((feeds f (feeds f s as).1 bs).1, (feeds f s as).2 ++ (feeds f (feeds f s as).1 bs).2) := by
  induction as generalizing s with
  | nil => rfl
  | cons a as ih => rw [cons_append, feeds_cons, ih, feeds_cons, append_assoc]

end

variable {n : Nat} {p : Incomplete} {s : Option Incomplete} {b : UInt8} {text : List Char} {bytes : List UInt8}

namespace Utf8

/-! ## The decoder -/

structure Incomplete where
  /-- bytes after the first -/
  more : Nat := 0
  missing : Nat
  code : Nat
  /-- what the next byte may be -/
  lower : Nat := 0x80
  upper : Nat := 0xBF
  deriving DecidableEq

def replacement : Char := Char.ofNat 0xFFFD

/-- A byte where a sequence may start. -/
def lead (b : Nat) : Option Incomplete × List Char :=
  if b ≤ 0x7F then (none, [Char.ofNat b])
  else if 0xC2 ≤ b ∧ b ≤ 0xDF then (some { missing := 1, code := b - 0xC0 }, [])
  else if 0xE0 ≤ b ∧ b ≤ 0xEF then
    -- no overlong sequences, no surrogates
    (some { missing := 2, code := b - 0xE0, lower := if b = 0xE0 then 0xA0 else 0x80, upper := if b = 0xED then 0x9F else 0xBF }, [])
  else if 0xF0 ≤ b ∧ b ≤ 0xF4 then
    (some { missing := 3, code := b - 0xF0, lower := if b = 0xF0 then 0x90 else 0x80, upper := if b = 0xF4 then 0x8F else 0xBF }, [])
  else (none, [replacement])

def feed : Option Incomplete → UInt8 → Option Incomplete × List Char
  | none, b => lead b.toNat
  | some p, b =>
    if p.lower ≤ b.toNat ∧ b.toNat ≤ p.upper then
      if p.missing = 1 then (none, [Char.ofNat (p.code * 64 + (b.toNat - 0x80))])
      else (some { more := p.more + 1, missing := p.missing - 1, code := p.code * 64 + (b.toNat - 0x80) }, [])
    else ((lead b.toNat).1, replacement :: (lead b.toNat).2)

def flush : Option Incomplete → List Char
  | none => []
  | some _ => [replacement]

def decode (bytes : List UInt8) : List Char := (feeds feed none bytes).2 ++ flush (feeds feed none bytes).1

def encode (text : List Char) : List UInt8 := text.flatMap String.utf8EncodeChar

/-! ## Round trip -/

theorem toNat_ofNat (h : n < 256) : (UInt8.ofNat n).toNat = n := by
  rw [UInt8.toNat_ofNat', Nat.mod_eq_of_lt h]

theorem feed_first (hn : n < 256) : feed none (UInt8.ofNat n) = lead n := by
  rw [feed, toNat_ofNat hn]

theorem feed_last (hm : p.missing = 1) (hl : p.lower ≤ n) (hu : n ≤ p.upper) (hn : n < 256) :
    feed (some p) (UInt8.ofNat n) = (none, [Char.ofNat (p.code * 64 + (n - 0x80))]) := by
  rw [feed, toNat_ofNat hn, if_pos ⟨hl, hu⟩, if_pos hm]

theorem feed_next (hm : p.missing ≠ 1) (hl : p.lower ≤ n) (hu : n ≤ p.upper) (hn : n < 256) :
    feed (some p) (UInt8.ofNat n) = (some { more := p.more + 1, missing := p.missing - 1, code := p.code * 64 + (n - 0x80) }, []) := by
  rw [feed, toNat_ofNat hn, if_pos ⟨hl, hu⟩, if_neg hm]

theorem lead_two {b : Nat} (h : 0xC2 ≤ b ∧ b ≤ 0xDF) : lead b = (some { missing := 1, code := b - 0xC0 }, []) := by
  rw [lead, if_neg (by omega), if_pos h]

theorem lead_three {b : Nat} (h : 0xE0 ≤ b ∧ b ≤ 0xEF) :
    ∃ l u, lead b = (some { missing := 2, code := b - 0xE0, lower := l, upper := u }, []) ∧
      ∀ n, 0x80 ≤ n → n ≤ 0xBF → (b = 0xE0 → 0xA0 ≤ n) → (b = 0xED → n ≤ 0x9F) → l ≤ n ∧ n ≤ u := by
  refine ⟨_, _, by rw [lead, if_neg (by omega), if_neg (by omega), if_pos h], fun n hl hu hlow hhigh => ?_⟩
  split <;> split <;> omega

theorem lead_four {b : Nat} (h : 0xF0 ≤ b ∧ b ≤ 0xF4) :
    ∃ l u, lead b = (some { missing := 3, code := b - 0xF0, lower := l, upper := u }, []) ∧
      ∀ n, 0x80 ≤ n → n ≤ 0xBF → (b = 0xF0 → 0x90 ≤ n) → (b = 0xF4 → n ≤ 0x8F) → l ≤ n ∧ n ≤ u := by
  refine ⟨_, _, by rw [lead, if_neg (by omega), if_neg (by omega), if_neg (by omega), if_pos h], fun n hl hu hlow hhigh => ?_⟩
  split <;> split <;> omega

theorem feeds_encodeChar (c : Char) : feeds feed none (String.utf8EncodeChar c) = (none, [c]) := by
  have hv : c.val.toNat < 0xD800 ∨ 0xDFFF < c.val.toNat ∧ c.val.toNat < 0x110000 := c.valid
  have hc : Char.ofNat c.val.toNat = c := Char.ofNat_toNat c
  unfold String.utf8EncodeChar
  generalize c.val.toNat = v at hv hc ⊢
  have hlast : 0x80 ≤ v % 64 + 128 ∧ v % 64 + 128 ≤ 0xBF := by omega
  have hmid : 0x80 ≤ v / 64 % 64 + 128 ∧ v / 64 % 64 + 128 ≤ 0xBF := by omega
  dsimp only
  split
  · -- one byte
    rw [feeds_cons, feed_first (by omega), lead, if_pos (by omega), feeds_nil, hc]
    rfl
  · split
    · -- two bytes
      rw [feeds_cons, feed_first (by omega), lead_two (by omega), feeds_cons, feed_last rfl hlast.1 hlast.2 (by omega), feeds_nil]
      have hcode : (v / 64 % 32 + 192 - 0xC0) * 64 + (v % 64 + 128 - 0x80) = v := by omega
      rw [hcode, hc]
      rfl
    · split
      · -- three bytes
        obtain ⟨l, u, hlead, hrange⟩ := lead_three (b := v / 4096 % 16 + 224) (by omega)
        obtain ⟨hl, hu⟩ := hrange (v / 64 % 64 + 128) hmid.1 hmid.2 (by omega) (by omega)
        rw [feeds_cons, feed_first (by omega), hlead, feeds_cons, feed_next (by simp) hl hu (by omega), feeds_cons,
          feed_last rfl hlast.1 hlast.2 (by omega), feeds_nil]
        have hcode : ((v / 4096 % 16 + 224 - 0xE0) * 64 + (v / 64 % 64 + 128 - 0x80)) * 64 + (v % 64 + 128 - 0x80) = v := by omega
        rw [hcode, hc]
        rfl
      · -- four bytes
        obtain ⟨l, u, hlead, hrange⟩ := lead_four (b := v / 262144 % 8 + 240) (by omega)
        obtain ⟨hl, hu⟩ := hrange (v / 4096 % 64 + 128) (by omega) (by omega) (by omega) (by omega)
        rw [feeds_cons, feed_first (by omega), hlead, feeds_cons, feed_next (by simp) hl hu (by omega), feeds_cons,
          feed_next (by simp) hmid.1 hmid.2 (by omega), feeds_cons, feed_last rfl hlast.1 hlast.2 (by omega), feeds_nil]
        have hcode : (((v / 262144 % 8 + 240 - 0xF0) * 64 + (v / 4096 % 64 + 128 - 0x80)) * 64 + (v / 64 % 64 + 128 - 0x80)) * 64 +
            (v % 64 + 128 - 0x80) = v := by omega
        rw [hcode, hc]
        rfl

theorem feeds_encode (text : List Char) : feeds feed none (encode text) = (none, text) := by
  induction text with
  | nil => rfl
  | cons c text ih =>
    rw [encode, flatMap_cons, feeds_append, feeds_encodeChar]
    rw [encode] at ih
    rw [ih]
    rfl

theorem decode_encode (text : List Char) : decode (encode text) = text := by
  rw [decode, feeds_encode]
  exact append_nil text

/-- What is incomplete waits for a byte beyond ASCII. -/
def Waits (s : Option Incomplete) : Prop := ∀ p, s = some p → 0x80 ≤ p.lower

theorem waits_lead (b : Nat) : Waits (lead b).1 := by
  intro p hp
  unfold lead at hp
  split at hp
  · cases hp
  · split at hp
    · cases hp
      exact le_rfl
    · split at hp
      · cases hp
        dsimp only
        split <;> omega
      · split at hp
        · cases hp
          dsimp only
          split <;> omega
        · cases hp

theorem waits_feed (s : Option Incomplete) (b : UInt8) : Waits (feed s b).1 := by
  cases s with
  | none => exact waits_lead b.toNat
  | some p =>
    rw [feed]
    split
    · split
      · intro q hq
        cases hq
      · intro q hq
        cases hq
        exact le_rfl
    · exact waits_lead b.toNat

theorem waits_feeds (hs : Waits s) (bytes : List UInt8) : Waits (feeds feed s bytes).1 := by
  induction bytes generalizing s with
  | nil => exact hs
  | cons b bytes ih =>
    rw [feeds_cons]
    exact ih (waits_feed s b)

theorem feed_ascii (hs : Waits s) (hb : b.toNat < 0x80) : feed s b = (none, flush s ++ [Char.ofNat b.toNat]) := by
  have hlead : lead b.toNat = (none, [Char.ofNat b.toNat]) := by rw [lead, if_pos (by omega)]
  cases s with
  | none => exact hlead
  | some p =>
    have hlow := hs p rfl
    rw [feed, if_neg (by omega), hlead]
    rfl

/-- An ASCII byte is always a character, and what stands before and after it is decoded on its own. -/
theorem decode_append_cons (a : List UInt8) (hb : b.toNat < 0x80) (bytes : List UInt8) :
    decode (a ++ b :: bytes) = decode a ++ Char.ofNat b.toNat :: decode bytes := by
  have hwaits : Waits (feeds feed none a).1 := waits_feeds (fun _ h => absurd h (by simp)) a
  unfold decode
  rw [feeds_append, feeds_cons, feed_ascii hwaits hb]
  simp only [append_assoc, cons_append, nil_append]

theorem encode_append (a b : List Char) : encode (a ++ b) = encode a ++ encode b := flatMap_append

theorem encode_ascii (h : ∀ c ∈ text, c.toNat < 0x80) : encode text = text.map fun c => UInt8.ofNat c.toNat := by
  induction text with
  | nil => rfl
  | cons c text ih =>
    have hc : c.val.toNat ≤ 0x7F := Nat.lt_succ_iff.mp (h c mem_cons_self)
    have hchar : String.utf8EncodeChar c = [UInt8.ofNat c.toNat] := by
      rw [String.utf8EncodeChar, if_pos hc]
      rfl
    have hrest := ih fun x hx => h x (mem_cons_of_mem _ hx)
    rw [encode] at hrest
    rw [map_cons, encode, flatMap_cons, hchar, hrest]
    rfl

/-- An octet below `0x80` is a character of its own. -/
theorem mem_encodeChar {c : Char} (h : b ∈ String.utf8EncodeChar c) : b.toNat = c.toNat ∨ 0x80 ≤ b.toNat := by
  have hv : c.val.toNat < 0x110000 := by
    have hvalid : c.val.toNat < 0xD800 ∨ 0xDFFF < c.val.toNat ∧ c.val.toNat < 0x110000 := c.valid
    omega
  have hc : c.toNat = c.val.toNat := rfl
  unfold String.utf8EncodeChar at h
  rw [hc]
  generalize c.val.toNat = v at hv h
  dsimp only at h
  split at h
  · rw [mem_singleton.mp h, toNat_ofNat (by omega)]
    exact Or.inl rfl
  · refine Or.inr ?_
    split at h
    · simp only [mem_cons, not_mem_nil, or_false] at h
      rcases h with rfl | rfl <;> rw [toNat_ofNat (by omega)] <;> omega
    · split at h
      · simp only [mem_cons, not_mem_nil, or_false] at h
        rcases h with rfl | rfl | rfl <;> rw [toNat_ofNat (by omega)] <;> omega
      · simp only [mem_cons, not_mem_nil, or_false] at h
        rcases h with rfl | rfl | rfl | rfl <;> rw [toNat_ofNat (by omega)] <;> omega

theorem mem_encode (h : b ∈ encode text) : Char.ofNat b.toNat ∈ text ∨ 0x80 ≤ b.toNat := by
  obtain ⟨c, hc, hb⟩ := mem_flatMap.mp h
  refine (mem_encodeChar hb).imp_left fun he => ?_
  rw [he, Char.ofNat_toNat]
  exact hc

theorem encodeChar_length (c : Char) : 1 ≤ (String.utf8EncodeChar c).length ∧ ((String.utf8EncodeChar c).length ≤ 1 → c.toNat < 0x80) := by
  have hc : c.toNat = c.val.toNat := rfl
  unfold String.utf8EncodeChar
  rw [hc]
  dsimp only
  split
  · exact ⟨le_rfl, fun _ => by omega⟩
  · split
    · exact ⟨by simp, fun h => by simp at h⟩
    · split <;> exact ⟨by simp, fun h => by simp at h⟩

theorem length_le_encode (text : List Char) : text.length ≤ (encode text).length := by
  induction text with
  | nil => exact Nat.zero_le _
  | cons c text ih =>
    rw [encode, flatMap_cons, length_append, length_cons, Nat.add_comm]
    exact Nat.add_le_add (encodeChar_length c).1 ih

/-- Only ASCII needs no more octets than characters. -/
theorem ascii_of_length (h : (encode text).length ≤ text.length) : ∀ c ∈ text, c.toNat < 0x80 := by
  induction text with
  | nil => exact fun c hc => absurd hc not_mem_nil
  | cons c text ih =>
    rw [encode, flatMap_cons, ← encode, length_append, length_cons] at h
    have hrest := length_le_encode text
    obtain ⟨hpos, hone⟩ := encodeChar_length c
    exact forall_mem_cons.mpr ⟨hone (by omega), ih (by omega)⟩

theorem exists_encode (h : ∀ b ∈ bytes, b.toNat < 0x80) : ∃ text, encode text = bytes := by
  have hchar {b : UInt8} (hb : b ∈ bytes) : (Char.ofNat b.toNat).toNat = b.toNat := by
    have hlt := h b hb
    rw [Char.toNat_ofNat, if_pos (Or.inl (by omega))]
  refine ⟨bytes.map fun b => Char.ofNat b.toNat, ?_⟩
  have hascii : ∀ c ∈ bytes.map fun b => Char.ofNat b.toNat, c.toNat < 0x80 := by
    intro c hc
    obtain ⟨b, hb, rfl⟩ := mem_map.mp hc
    rw [hchar hb]
    exact h b hb
  rw [encode_ascii hascii, map_map]
  refine (map_congr_left fun b hb => ?_).trans (map_id bytes)
  rw [Function.comp_apply, hchar hb, UInt8.ofNat_toNat, id_eq]

/-! ## UTF-16 -/

/-- A character beyond the basic plane takes a surrogate pair. -/
def units (c : Char) : List UInt16 :=
  if c.toNat < 0x10000 then [UInt16.ofNat c.toNat]
  else [UInt16.ofNat (0xD800 + (c.toNat - 0x10000) / 0x400), UInt16.ofNat (0xDC00 + (c.toNat - 0x10000) % 0x400)]

theorem units_length_le (c : Char) : (units c).length ≤ 2 := by
  unfold units
  split <;> simp

theorem units_length_ofNat (hn : n < 0xD800) : (units (Char.ofNat n)).length = 1 := by
  have hval : (Char.ofNat n).toNat = n := by
    rw [Char.toNat_ofNat, if_pos (Or.inl hn)]
  rw [units, hval, if_pos (by omega)]
  rfl

theorem units_replacement : (units replacement).length = 1 := by decide

def seen : Option Incomplete → Nat
  | none => 0
  | some p => p.more + 1

@[simp] theorem seen_none : seen none = 0 := rfl

@[simp] theorem seen_some (p : Incomplete) : seen (some p) = p.more + 1 := rfl

theorem lead_units (b : Nat) : ((lead b).2.flatMap units).length + seen (lead b).1 = 1 := by
  unfold lead
  split
  · next hb => simp [units_length_ofNat (show b < 0xD800 by omega)]
  · split
    · rfl
    · split
      · rfl
      · split
        · rfl
        · simp [units_replacement]

theorem feed_units (s : Option Incomplete) (b : UInt8) :
    ((feed s b).2.flatMap units).length + seen (feed s b).1 ≤ seen s + 1 := by
  have hlead := lead_units b.toNat
  cases s with
  | none => exact hlead.le
  | some p =>
    rw [feed]
    split
    · split
      · have hle := units_length_le (Char.ofNat (p.code * 64 + (b.toNat - 0x80)))
        simp only [flatMap_cons, flatMap_nil, append_nil, seen_none, seen_some]
        omega
      · simp
    · simp only [flatMap_cons, length_append, units_replacement, seen_some]
      omega

theorem units_add_seen_le (s : Option Incomplete) (bytes : List UInt8) :
    ((feeds feed s bytes).2.flatMap units).length + seen (feeds feed s bytes).1 ≤ seen s + bytes.length := by
  induction bytes generalizing s with
  | nil => simp
  | cons b bytes ih =>
    have hb := feed_units s b
    have hrest := ih (feed s b).1
    simp only [feeds_cons, flatMap_append, length_append, length_cons]
    omega

theorem feed_answers (s : Option Incomplete) (b : UInt8) (h : (feed s b).1 = none) : (feed s b).2 ≠ [] := by
  cases s with
  | none =>
    intro hout
    have hlead := lead_units b.toNat
    rw [feed] at h hout
    rw [h, hout] at hlead
    cases hlead
  | some p =>
    rw [feed] at h ⊢
    split
    · next hb =>
      rw [if_pos hb] at h
      split
      · simp
      · next hm =>
        rw [if_neg hm] at h
        cases h
    · simp

theorem feeds_answers (hne : bytes ≠ []) (h : (feeds feed s bytes).1 = none) :
    (feeds feed s bytes).2.flatMap units ≠ [] := by
  obtain rfl | ⟨init, b, rfl⟩ := eq_nil_or_concat' bytes
  · exact absurd rfl hne
  · -- the last byte is not kept, so it is answered
    rw [feeds_append] at h ⊢
    obtain ⟨c, out, hout⟩ := exists_cons_of_ne_nil (feed_answers (feeds feed s init).1 b h)
    have hc : units c ≠ [] := by
      unfold units
      split <;> simp
    simp [feeds_cons, hout, hc]

end Utf8

end Aworker.Lib
