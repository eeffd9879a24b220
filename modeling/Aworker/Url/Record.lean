/-
  Aworker.Url.Record — `new URLSearchParams(record)` (lib/url/url.js), with `toUSVString`
  (lib/types.js, src/binding/internal/aworker_bytes.cc).

  The constructor goes over the own keys of the object. `visited`, in which it looks up a key
  that it has seen, is a plain object: for a member of `Object.prototype` the lookup finds that
  member, and the value is written to its property 1. For `__proto__` that is `Object.prototype`
  itself, which then answers for the key `1` as well.

  `toUSVString` starts to replace where a regular expression matches. If the first unpaired
  surrogate is a trailing one, the match begins one unit before it, and that unit may be the end
  of a pair.

  - `toUSVString_eq_iff`: the conversion is that of the standard unless the first unpaired
    surrogate is a trailing one right behind a pair.
  - `record_exact_iff`: one pair for each converted key, in order of first occurrence, with the
    value of the last key, and no other object changed, exactly if no key is a member's name, none
    is `1` while `Object.prototype` has a text there, and the keys and the values that stay are
    converted as the standard has it.
  Also `constructor_lost`.
-/

import Mathlib
import Aworker.Lib.Effects
import Aworker.Lib.LastWins

namespace Aworker.Url.Record

open Aworker.Lib List Option Function

/-! ## Conversion to scalar values -/

/-- UTF-16 code units -/
abbrev JsString := List UInt16

def js (s : String) : JsString := s.toList.map fun c => UInt16.ofNat c.toNat

/-- `[\uD800-\uDBFF]` -/
def isLead (c : UInt16) : Bool := 0xD800 ≤ c && c ≤ 0xDBFF

/-- `[\uDC00-\uDFFF]` -/
def isTrail (c : UInt16) : Bool := 0xDC00 ≤ c && c ≤ 0xDFFF

/-- `surrogateRegexp` matches at the first unit; `first` if that is the start of the text. -/
def matchesHere (first : Bool) (c : UInt16) (rest : JsString) : Bool :=
  (!isLead c && rest.head?.any isTrail) || (first && isTrail c) || (isLead c && !rest.head?.any isTrail)

/-- The index of the leftmost match. -/
def surrogateIndex (first : Bool) : JsString → Option Nat
  | [] => none
  | c :: rest => if matchesHere first c rest then some 0 else (surrogateIndex false rest).map (· + 1)

def isUnicodeTrail (c : UInt16) : Bool := c &&& 0xFC00 == 0xDC00

def isUnicodeSurrogate (c : UInt16) : Bool := c &&& 0xF800 == 0xD800

def isUnicodeSurrogateTrail (c : UInt16) : Bool := c &&& 0x400 != 0

def replacement : UInt16 := 0xFFFD

/-- The loop of `ToUSVString` from its first index on. -/
def replaceUnpaired : JsString → JsString
  | [] => []
  | [c] => if !isUnicodeSurrogate c then [c] else [replacement]
  | c :: d :: rest =>
    if !isUnicodeSurrogate c then c :: replaceUnpaired (d :: rest)
    else if isUnicodeSurrogateTrail c then replacement :: replaceUnpaired (d :: rest)
    else if isUnicodeTrail d then c :: d :: replaceUnpaired rest
    else replacement :: replaceUnpaired (d :: rest)

def toUSVString (str : JsString) : JsString :=
  match surrogateIndex true str with
  | none => str
  | some start => str.take start ++ replaceUnpaired (str.drop start)

def codePoints : JsString → List JsString
  | [] => []
  | [c] => [[c]]
  | c :: d :: rest => if isLead c && isTrail d then [c, d] :: codePoints rest else [c] :: codePoints (d :: rest)

/-- Every surrogate among the code points becomes U+FFFD. -/
def scalar (str : JsString) : JsString :=
  (codePoints str).flatMap fun
    | [c] => if isLead c || isTrail c then [replacement] else [c]
    | point => point

/-! ## The constructor -/

/-- The objects that `Object.prototype` has under its names; `proto` is `Object.prototype`. -/
inductive Member where
  | constructor
  | defineGetter
  | defineSetter
  | hasOwnProperty
  | lookupGetter
  | lookupSetter
  | isPrototypeOf
  | propertyIsEnumerable
  | toString
  | valueOf
  | proto
  | toLocaleString
  deriving DecidableEq

def members : List (JsString × Member) :=
  [(js "constructor", .constructor), (js "__defineGetter__", .defineGetter), (js "__defineSetter__", .defineSetter),
    (js "hasOwnProperty", .hasOwnProperty), (js "__lookupGetter__", .lookupGetter), (js "__lookupSetter__", .lookupSetter),
    (js "isPrototypeOf", .isPrototypeOf), (js "propertyIsEnumerable", .propertyIsEnumerable), (js "toString", .toString),
    (js "valueOf", .valueOf), (js "__proto__", .proto), (js "toLocaleString", .toLocaleString)]

def member? (name : JsString) : Option Member := (members.find? (·.1 = name)).map Prod.snd

def one : JsString := js "1"

inductive Thrown where
  | typeError
  deriving DecidableEq

structure Build where
  /-- property 1 of the members -/
  ones : Member → Option JsString
  /-- the tuples, which `visited` holds under their names -/
  array : List (JsString × JsString) := []

/-- `visited[name]` -/
inductive Answer where
  | tuple
  | member (m : Member)
  | text (t : JsString)
  | undefined

def Build.lookup (b : Build) (name : JsString) : Answer :=
  if b.array.any (·.1 = name) then .tuple
  else match member? name with
    | some m => .member m
    | none =>
      if name = one then
        match b.ones .proto with
        | some t => .text t
        | none => .undefined
      else .undefined

/-- `visited[name][1] = value` -/
def Build.assign (b : Build) (name value : JsString) : Build := { b with array := put Prod.fst b.array (name, value) }

/-- A new tuple, in `visited` and at the end of the array. -/
def Build.push (b : Build) (name value : JsString) : Build := { b with array := b.array ++ [(name, value)] }

/-- One turn of the loop over `Object.keys(init)`. -/
def visit (e : JsString × JsString) : Eff Thrown Build Unit := do
  let replaced := toUSVString e.1
  let value := toUSVString e.2
  let b ← getThe Build
  match b.lookup replaced with
  | .tuple => modify fun b => b.assign replaced value
  | .member m => modify fun b => { b with ones := Function.update b.ones m (some value) }
  -- a property of a string cannot be assigned in strict mode; the empty string is falsy
  | .text t => if t = [] then modify fun b => b.push replaced value else throw .typeError
  | .undefined => modify fun b => b.push replaced value

/-- What the constructor returns or throws, the list, and property 1 of the members. -/
def construct (record : List (JsString × JsString)) (ones : Member → Option JsString) : Except Thrown Unit × Build :=
  exec (record.forM visit) { ones }

/-- What the standard makes of the record. -/
def expected (record : List (JsString × JsString)) : List (JsString × JsString) :=
  lastWins Prod.fst (record.map fun e => (scalar e.1, scalar e.2))

/-! ## Surrogates -/

theorem and_highMask {x k : Nat} (hk : k ≤ 16) (hx : x < 2 ^ 16) : x &&& (2 ^ 16 - 2 ^ k) = x / 2 ^ k * 2 ^ k := by
  have hpow : 2 ^ 16 - 2 ^ k = 2 ^ 16 - (2 ^ k - 1 + 1) := by rw [Nat.sub_add_cancel Nat.one_le_two_pow]
  have hlt : 2 ^ k - 1 < 2 ^ 16 := lt_of_lt_of_le (Nat.sub_lt (Nat.two_pow_pos k) one_pos) (Nat.pow_le_pow_right two_pos hk)
  refine Nat.eq_of_testBit_eq fun i => ?_
  rw [Nat.testBit_and, hpow, Nat.testBit_two_pow_sub_succ hlt, Nat.testBit_two_pow_sub_one, Nat.testBit_mul_two_pow, Nat.testBit_div_two_pow]
  by_cases hi : k ≤ i
  · by_cases hi16 : i < 16
    · simp [hi, hi16, Nat.not_lt.mpr hi, Nat.sub_add_cancel hi]
    · have hbit : x.testBit i = false :=
        Nat.testBit_lt_two_pow (lt_of_lt_of_le hx (Nat.pow_le_pow_right two_pos (Nat.le_of_not_lt hi16)))
      simp [Nat.sub_add_cancel hi, hbit]
  · simp [hi, Nat.lt_of_not_le hi]

theorem isLead_iff (c : UInt16) : isLead c = true ↔ 0xD800 ≤ c.toNat ∧ c.toNat ≤ 0xDBFF := by
  simp [isLead, UInt16.le_iff_toNat_le]

theorem isTrail_iff (c : UInt16) : isTrail c = true ↔ 0xDC00 ≤ c.toNat ∧ c.toNat ≤ 0xDFFF := by
  simp [isTrail, UInt16.le_iff_toNat_le]

theorem isUnicodeTrail_eq (c : UInt16) : isUnicodeTrail c = isTrail c := by
  have hmask : c.toNat &&& 0xFC00 = c.toNat / 2 ^ 10 * 2 ^ 10 := and_highMask (k := 10) (by decide) c.toNat_lt
  rw [Bool.eq_iff_iff, isTrail_iff, isUnicodeTrail, beq_iff_eq, ← UInt16.toNat_inj, UInt16.toNat_and]
  simp only [UInt16.reduceToNat, hmask]
  omega

theorem isUnicodeSurrogate_eq (c : UInt16) : isUnicodeSurrogate c = (isLead c || isTrail c) := by
  have hmask : c.toNat &&& 0xF800 = c.toNat / 2 ^ 11 * 2 ^ 11 := and_highMask (k := 11) (by decide) c.toNat_lt
  rw [Bool.eq_iff_iff, Bool.or_eq_true, isLead_iff, isTrail_iff, isUnicodeSurrogate, beq_iff_eq, ← UInt16.toNat_inj, UInt16.toNat_and]
  simp only [UInt16.reduceToNat, hmask]
  omega

variable {c : UInt16}

theorem isUnicodeSurrogateTrail_eq (h : isUnicodeSurrogate c = true) : isUnicodeSurrogateTrail c = isTrail c := by
  have hmask : c.toNat &&& 0x400 = (c.toNat.testBit 10).toNat * 2 ^ 10 := Nat.and_two_pow c.toNat 10
  rw [isUnicodeSurrogate_eq, Bool.or_eq_true, isLead_iff, isTrail_iff] at h
  rw [Bool.eq_iff_iff, isTrail_iff, isUnicodeSurrogateTrail, bne_iff_ne, ne_eq, ← UInt16.toNat_inj, UInt16.toNat_and]
  simp only [UInt16.reduceToNat, hmask, Nat.testBit_eq_decide_div_mod_eq]
  by_cases hbit : c.toNat / 2 ^ 10 % 2 = 1
  · simp only [hbit, decide_true, Bool.toNat_true]
    omega
  · simp only [hbit, decide_false, Bool.toNat_false]
    omega

theorem isTrail_of_isLead (h : isLead c = true) : isTrail c = false := by
  rw [isLead_iff] at h
  rw [Bool.eq_false_iff, ne_eq, isTrail_iff]
  omega

theorem isLead_of_isTrail (h : isTrail c = true) : isLead c = false := by
  by_contra hl
  rw [isTrail_of_isLead (Bool.eq_true_of_not_eq_false hl)] at h
  cases h

theorem replacement_plain : isLead replacement = false ∧ isTrail replacement = false := by decide

/-- Over a text from its start: a unit that is no surrogate, a pair, or an unpaired one. -/
theorem units_induction {P : JsString → Prop} (nil : P [])
    (plain : ∀ c rest, isLead c = false → isTrail c = false → P rest → P (c :: rest))
    (pair : ∀ c d rest, isLead c = true → isTrail d = true → P rest → P (c :: d :: rest))
    (trail : ∀ c rest, isTrail c = true → P rest → P (c :: rest))
    (lead : ∀ c rest, isLead c = true → rest.head?.any isTrail = false → P rest → P (c :: rest)) (str : JsString) : P str := by
  have single : ∀ c rest, (isLead c = true → rest.head?.any isTrail = false) → P rest → P (c :: rest) := by
    intro c rest hlead hrest
    by_cases hc : isLead c = true
    · exact lead c rest hc (hlead hc) hrest
    · by_cases hd : isTrail c = true
      · exact trail c rest hd hrest
      · exact plain c rest (Bool.eq_false_of_not_eq_true hc) (Bool.eq_false_of_not_eq_true hd) hrest
  fun_induction codePoints str with
  | case1 => exact nil
  | case2 c => exact single c [] (fun _ => rfl) nil
  | case3 c d rest h ih =>
    rw [Bool.and_eq_true] at h
    exact pair c d rest h.1 h.2 ih
  | case4 c d rest h ih =>
    refine single c (d :: rest) (fun hc => ?_) ih
    rw [hc, Bool.true_and] at h
    exact Bool.eq_false_of_not_eq_true h

section Units

variable {c d : UInt16} {rest : JsString}

theorem scalar_plain (hc : isLead c = false) (hd : isTrail c = false) : scalar (c :: rest) = c :: scalar rest := by
  cases rest with
  | nil => simp [scalar, codePoints, hc, hd]
  | cons d rest => simp [scalar, codePoints, hc, hd]

theorem scalar_pair (hc : isLead c = true) (hd : isTrail d = true) : scalar (c :: d :: rest) = c :: d :: scalar rest := by
  simp [scalar, codePoints, hc, hd]

theorem scalar_trail (hc : isTrail c = true) : scalar (c :: rest) = replacement :: scalar rest := by
  cases rest with
  | nil => simp [scalar, codePoints, hc]
  | cons d rest => simp [scalar, codePoints, hc, isLead_of_isTrail hc]

theorem scalar_lead (hc : isLead c = true) (hd : rest.head?.any isTrail = false) : scalar (c :: rest) = replacement :: scalar rest := by
  cases rest with
  | nil => simp [scalar, codePoints, hc]
  | cons d rest =>
    have hd : isTrail d = false := hd
    simp [scalar, codePoints, hc, hd]

theorem replaceUnpaired_eq (str : JsString) : replaceUnpaired str = scalar str := by
  have hsur := isUnicodeSurrogate_eq
  induction str using units_induction with
  | nil => rfl
  | plain c rest hc hd ih =>
    rw [scalar_plain hc hd, ← ih]
    cases rest <;> simp [replaceUnpaired, hsur, hc, hd]
  | pair c d rest hc hd ih =>
    have hbit := isUnicodeSurrogateTrail_eq (c := c) (by rw [hsur, hc, Bool.true_or])
    rw [scalar_pair hc hd, ← ih]
    simp [replaceUnpaired, hsur, hc, hd, hbit, isTrail_of_isLead hc, isUnicodeTrail_eq]
  | trail c rest hc ih =>
    have hbit := isUnicodeSurrogateTrail_eq (c := c) (by rw [hsur, hc, Bool.or_true])
    rw [scalar_trail hc, ← ih]
    cases rest <;> simp [replaceUnpaired, hsur, hc, hbit]
  | lead c rest hc hd ih =>
    have hbit := isUnicodeSurrogateTrail_eq (c := c) (by rw [hsur, hc, Bool.true_or])
    rw [scalar_lead hc hd, ← ih]
    cases rest with
    | nil => simp [replaceUnpaired, hsur, hc]
    | cons d rest =>
      have hd : isTrail d = false := hd
      simp [replaceUnpaired, hsur, hc, hd, hbit, isTrail_of_isLead hc, isUnicodeTrail_eq]

end Units

/-! ## Texts without unpaired surrogates -/

inductive WellFormed : JsString → Prop
  | nil : WellFormed []
  | plain {c : UInt16} {rest : JsString} (hc : isLead c = false) (hd : isTrail c = false) (h : WellFormed rest) : WellFormed (c :: rest)
  | pair {c d : UInt16} {rest : JsString} (hc : isLead c = true) (hd : isTrail d = true) (h : WellFormed rest) : WellFormed (c :: d :: rest)

variable {w : JsString}

theorem scalar_append (hw : WellFormed w) (t : JsString) : scalar (w ++ t) = w ++ scalar t := by
  induction hw with
  | nil => rfl
  | plain hc hd _ ih => rw [cons_append, scalar_plain hc hd, ih, cons_append]
  | pair hc hd _ ih => rw [cons_append, cons_append, scalar_pair hc hd, ih, cons_append, cons_append]

theorem WellFormed.scalar_eq (hw : WellFormed w) : scalar w = w := by
  have h := scalar_append hw []
  rwa [append_nil, show scalar [] = [] from rfl, append_nil] at h

theorem wellFormed_scalar (str : JsString) : WellFormed (scalar str) := by
  obtain ⟨hl, ht⟩ := replacement_plain
  induction str using units_induction with
  | nil => exact .nil
  | plain c rest hc hd ih => exact scalar_plain hc hd ▸ .plain hc hd ih
  | pair c d rest hc hd ih => exact scalar_pair hc hd ▸ .pair hc hd ih
  | trail c rest hc ih => exact scalar_trail hc ▸ .plain hl ht ih
  | lead c rest hc hd ih => exact scalar_lead hc hd ▸ .plain hl ht ih

/-- The first unit of `t` is an unpaired surrogate. -/
inductive Unpaired : JsString → Prop
  | trail {c : UInt16} {t : JsString} (hc : isTrail c = true) : Unpaired (c :: t)
  | lead {c : UInt16} {t : JsString} (hc : isLead c = true) (ht : t.head?.any isTrail = false) : Unpaired (c :: t)

theorem wellFormed_or (str : JsString) : WellFormed str ∨ ∃ w t, str = w ++ t ∧ WellFormed w ∧ Unpaired t := by
  induction str using units_induction with
  | nil => exact Or.inl .nil
  | plain c rest hc hd ih =>
    rcases ih with h | ⟨w, t, rfl, hw, ht⟩
    · exact Or.inl (.plain hc hd h)
    · exact Or.inr ⟨c :: w, t, rfl, .plain hc hd hw, ht⟩
  | pair c d rest hc hd ih =>
    rcases ih with h | ⟨w, t, rfl, hw, ht⟩
    · exact Or.inl (.pair hc hd h)
    · exact Or.inr ⟨c :: d :: w, t, rfl, .pair hc hd hw, ht⟩
  | trail c rest hc _ => exact Or.inr ⟨[], c :: rest, rfl, .nil, .trail hc⟩
  | lead c rest hc hd _ => exact Or.inr ⟨[], c :: rest, rfl, .nil, .lead hc hd⟩

theorem wellFormed_head (hw : WellFormed w) (hne : w ≠ []) (t : JsString) : (w ++ t).head?.any isTrail = false := by
  cases hw with
  | nil => exact absurd rfl hne
  | plain hc hd _ => exact hd
  | pair hc hd _ => exact isTrail_of_isLead hc

theorem wellFormed_concat (hw : WellFormed (w ++ [c])) : (WellFormed w ∧ isLead c = false ∧ isTrail c = false) ∨
      ∃ w' d, w = w' ++ [d] ∧ WellFormed w' ∧ isLead d = true ∧ isTrail c = true := by
  generalize hs : w ++ [c] = str at hw
  induction hw generalizing w with
  | nil => simp at hs
  | @plain b rest hb hb' hrest ih =>
    cases w with
    | nil =>
      cases hs
      exact Or.inl ⟨.nil, hb, hb'⟩
    | cons a w =>
      cases hs
      rcases ih rfl with ⟨hw, hc⟩ | ⟨w', d, rfl, hw', hd⟩
      · exact Or.inl ⟨.plain hb hb' hw, hc⟩
      · exact Or.inr ⟨b :: w', d, rfl, .plain hb hb' hw', hd⟩
  | @pair b b' rest hb hb' hrest ih =>
    match w with
    | [] => simp at hs
    | [a] =>
      cases hs
      exact Or.inr ⟨[], b, rfl, .nil, hb, hb'⟩
    | a :: a' :: w =>
      cases hs
      rcases ih rfl with ⟨hw, hc⟩ | ⟨w', d, rfl, hw', hd⟩
      · exact Or.inl ⟨.pair hb hb' hw, hc⟩
      · exact Or.inr ⟨b :: b' :: w', d, rfl, .pair hb hb' hw', hd⟩

/-! ## The index at which the replacing starts -/

section Index

variable {c d : UInt16} {rest w t : JsString} {first : Bool}

theorem surrogateIndex_plain (hc : isLead c = false) (hd : isTrail c = false) (hnext : rest.head?.any isTrail = false) :
    surrogateIndex first (c :: rest) = (surrogateIndex false rest).map (· + 1) := by
  rw [surrogateIndex, matchesHere, hc, hd, hnext]
  simp

theorem surrogateIndex_pair (hc : isLead c = true) (hd : isTrail d = true) (hnext : rest.head?.any isTrail = false) :
    surrogateIndex first (c :: d :: rest) = (surrogateIndex false rest).map (· + 2) := by
  rw [surrogateIndex, matchesHere, hc, isTrail_of_isLead hc, surrogateIndex, matchesHere, isLead_of_isTrail hd, hnext]
  simp [hd, comp_def]

/-- Nothing matches in a well-formed text, unless an unpaired trailing surrogate follows it. -/
theorem surrogateIndex_append (first : Bool) (hw : WellFormed w) (ht : t.head?.any isTrail = false) :
    surrogateIndex first (w ++ t) = (surrogateIndex (first && w.isEmpty) t).map (· + w.length) := by
  have hnext : ∀ {w : JsString}, WellFormed w → (w ++ t).head?.any isTrail = false := by
    intro w hw
    by_cases hne : w = []
    · rw [hne]
      exact ht
    · exact wellFormed_head hw hne t
  induction hw generalizing first with
  | nil => simp
  | plain hc hd hrest ih =>
    rw [cons_append, surrogateIndex_plain hc hd (hnext hrest), ih, Option.map_map]
    simp [comp_def, Nat.add_assoc]
  | pair hc hd hrest ih =>
    rw [cons_append, cons_append, surrogateIndex_pair hc hd (hnext hrest), ih, Option.map_map]
    simp [comp_def, Nat.add_assoc]

theorem surrogateIndex_trail (first : Bool) (t : JsString) (hw : WellFormed w) (hne : w ≠ []) (hc : isTrail c = true) :
    surrogateIndex first (w ++ c :: t) = some (w.length - 1) := by
  induction hw generalizing first with
  | nil => exact absurd rfl hne
  | @plain b rest hb hb' hrest ih =>
    by_cases hr : rest = []
    · subst hr
      simp [surrogateIndex, matchesHere, hb, hc]
    · have hpos := length_pos_of_ne_nil hr
      rw [cons_append, surrogateIndex_plain hb hb' (wellFormed_head hrest hr _), ih _ hr, map_some, length_cons]
      congr 1
      omega
  | @pair b b' rest hb hb' hrest ih =>
    by_cases hr : rest = []
    · subst hr
      simp [surrogateIndex, matchesHere, hb, hb', hc, isTrail_of_isLead hb, isLead_of_isTrail hb']
    · have hpos := length_pos_of_ne_nil hr
      rw [cons_append, cons_append, surrogateIndex_pair hb hb' (wellFormed_head hrest hr _), ih _ hr, map_some,
        length_cons, length_cons]
      congr 1
      omega

end Index

variable {str : JsString}

theorem toUSVString_wellFormed (h : WellFormed str) : toUSVString str = str := by
  have hnone := surrogateIndex_append true h (t := []) rfl
  rw [append_nil] at hnone
  rw [toUSVString, hnone]
  rfl

/-- The first unpaired surrogate of the text is a trailing one, right behind a pair. -/
def Misread (str : JsString) : Prop :=
  ∃ w c d e t, str = w ++ c :: d :: e :: t ∧ WellFormed w ∧ isLead c = true ∧ isTrail d = true ∧ isTrail e = true

theorem toUSVString_misread (h : Misread str) : scalar (toUSVString str) ≠ toUSVString str := by
  obtain ⟨w, c, d, e, t, rfl, hw, hc, hd, he⟩ := h
  have hwf : WellFormed (w ++ [c, d]) := by
    clear e t he
    induction hw with
    | nil => exact .pair hc hd .nil
    | plain hb hb' _ ih => exact .plain hb hb' ih
    | pair hb hb' _ ih => exact .pair hb hb' ih
  have hindex := surrogateIndex_trail true t hwf (by simp) he
  rw [append_assoc, cons_append, cons_append, nil_append] at hindex
  have hlen : (w ++ [c, d]).length - 1 = (w ++ [c]).length := by simp
  have hsplit : w ++ c :: d :: e :: t = (w ++ [c]) ++ d :: e :: t := by simp
  have hbad : toUSVString (w ++ c :: d :: e :: t) = w ++ c :: replacement :: replaceUnpaired (e :: t) := by
    rw [toUSVString, hindex, hlen, hsplit]
    simp only [take_left', drop_left']
    rw [replaceUnpaired_eq, scalar_trail hd, ← replaceUnpaired_eq]
    simp
  have hno : (replacement :: replaceUnpaired (e :: t)).head?.any isTrail = false := replacement_plain.2
  intro heq
  rw [hbad, scalar_append hw, scalar_lead hc hno, append_cancel_left_eq] at heq
  have hrep : replacement = c := (List.cons.inj heq).1
  rw [← hrep, replacement_plain.1] at hc
  cases hc

theorem toUSVString_scalar (h : ¬Misread str) : toUSVString str = scalar str := by
  rcases wellFormed_or str with hwf | ⟨w, t, rfl, hw, ht⟩
  · rw [toUSVString_wellFormed hwf, hwf.scalar_eq]
  · -- the replacing starts at the unpaired unit, or one before it
    have hstart : ∀ {w t : JsString}, WellFormed w → surrogateIndex true (w ++ t) = some w.length → toUSVString (w ++ t) = scalar (w ++ t) := by
      intro w t hw hindex
      rw [toUSVString, hindex]
      simp only [take_left', drop_left']
      rw [replaceUnpaired_eq, scalar_append hw]
    cases ht with
    | @lead c t hc ht =>
      have hhead : (c :: t).head?.any isTrail = false := isTrail_of_isLead hc
      refine hstart hw ?_
      rw [surrogateIndex_append _ hw hhead, surrogateIndex, matchesHere, hc, ht]
      simp
    | @trail c t hc =>
      rcases eq_nil_or_concat' w with rfl | ⟨w, b, rfl⟩
      · refine hstart hw ?_
        rw [nil_append, surrogateIndex, matchesHere, hc]
        simp
      · have hindex := surrogateIndex_trail true t hw (by simp) hc
        rcases wellFormed_concat hw with ⟨hw', hb⟩ | ⟨w', a, rfl, hw', ha, hb⟩
        · have hlen : (w ++ [b]).length - 1 = w.length := by simp
          rw [hlen, append_assoc] at hindex
          rw [append_assoc]
          exact hstart hw' hindex
        · refine absurd ⟨w', a, b, c, t, ?_, hw', ha, hb, hc⟩ h
          simp

theorem toUSVString_eq_iff (str : JsString) : toUSVString str = scalar str ↔ ¬Misread str := by
  refine ⟨fun h hm => toUSVString_misread hm ?_, toUSVString_scalar⟩
  rw [h, (wellFormed_scalar str).scalar_eq]

/-! ## The names of members -/

/-- ASCII texts are the same before and after a conversion. -/
def Ascii (name : JsString) : Prop := ∀ c ∈ name, c.toNat < 0x80

theorem ascii_js {s : String} (h : s.toList.all (·.toNat < 0x80) = true) : Ascii (js s) := by
  intro c hc
  obtain ⟨c', hc', rfl⟩ := List.mem_map.mp hc
  have hlt : c'.toNat < 0x80 := by simpa using List.all_eq_true.mp h c' hc'
  rw [UInt16.toNat_ofNat', Nat.mod_eq_of_lt (by omega)]
  exact hlt

variable {name : JsString}

theorem Ascii.wellFormed (h : Ascii name) : WellFormed name := by
  induction name with
  | nil => exact .nil
  | cons c name ih =>
    obtain ⟨hc, hrest⟩ := forall_mem_cons.mp h
    refine .plain ?_ ?_ (ih hrest)
    · rw [Bool.eq_false_iff, ne_eq, isLead_iff]
      omega
    · rw [Bool.eq_false_iff, ne_eq, isTrail_iff]
      omega

theorem scalar_same (str : JsString) : scalar str = str ∨ replacement ∈ scalar str := by
  induction str using units_induction with
  | nil => exact Or.inl rfl
  | plain c rest hc hd ih =>
    rw [scalar_plain hc hd]
    exact ih.imp (congrArg (c :: ·)) (mem_cons_of_mem c)
  | pair c d rest hc hd ih =>
    rw [scalar_pair hc hd]
    exact ih.imp (congrArg fun rest => c :: d :: rest) fun h => mem_cons_of_mem c (mem_cons_of_mem d h)
  | trail c rest hc _ => exact Or.inr (scalar_trail hc ▸ mem_cons_self)
  | lead c rest hc hd _ => exact Or.inr (scalar_lead hc hd ▸ mem_cons_self)

theorem scalar_eq_name (hn : Ascii name) (key : JsString) : scalar key = name ↔ key = name := by
  constructor
  · intro h
    rcases scalar_same key with hs | hr
    · exact hs.symm.trans h
    · exact absurd (hn replacement (h ▸ hr)) (by decide)
  · rintro rfl
    exact hn.wellFormed.scalar_eq

theorem toUSVString_eq_name (hn : Ascii name) (key : JsString) : toUSVString key = name ↔ key = name := by
  constructor
  · intro h
    by_cases hm : Misread key
    · refine absurd ?_ (toUSVString_misread hm)
      rw [h]
      exact hn.wellFormed.scalar_eq
    · rw [toUSVString_scalar hm] at h
      exact (scalar_eq_name hn key).mp h
  · rintro rfl
    exact toUSVString_wellFormed hn.wellFormed

theorem one_ascii : Ascii one := ascii_js (by decide)

theorem members_ascii : ∀ m ∈ members, Ascii m.1 := by
  intro m hm
  simp only [members, mem_cons, not_mem_nil, or_false] at hm
  rcases hm with rfl | rfl | rfl | rfl | rfl | rfl | rfl | rfl | rfl | rfl | rfl | rfl <;> exact ascii_js (by decide)

variable {key : JsString}

theorem member?_eq {text : JsString} (h : ∀ {name : JsString}, Ascii name → (text = name ↔ key = name)) : member? text = member? key := by
  have hfind : members.find? (·.1 = text) = members.find? (·.1 = key) := by
    refine find?_congr fun m hm => ?_
    have hname := h (members_ascii m hm)
    simp only [decide_eq_decide]
    exact ⟨fun he => (hname.mp he.symm).symm, fun he => (hname.mpr he.symm).symm⟩
  rw [member?, hfind, member?]

theorem member?_toUSVString (key : JsString) : member? (toUSVString key) = member? key := member?_eq fun hn => toUSVString_eq_name hn key

/-! ## One key -/

variable {b b' : Build} {e : JsString × JsString} {record : List (JsString × JsString)}

inductive Visits (b : Build) (e : JsString × JsString) : Except Thrown Unit × Build → Prop
  | tuple (h : (toUSVString e.1) ∈ b.array.map Prod.fst) : Visits b e (.ok (), b.assign (toUSVString e.1) (toUSVString e.2))
  | member (m : Member) (hm : member? e.1 = some m) :
    Visits b e (.ok (), { b with ones := Function.update b.ones m (some (toUSVString e.2)) })
  | push (h : (toUSVString e.1) ∉ b.array.map Prod.fst) (hm : member? e.1 = none)
    (hone : e.1 = one → b.ones .proto = none ∨ b.ones .proto = some []) : Visits b e (.ok (), b.push (toUSVString e.1) (toUSVString e.2))
  | throws (t : JsString) (he : e.1 = one) (ht : b.ones .proto = some t) (hne : t ≠ []) : Visits b e (.error .typeError, b)

theorem visits (b : Build) (e : JsString × JsString) : Visits b e (exec (visit e) b) := by
  have hget : exec (visit e) b = exec (match b.lookup (toUSVString e.1) with
      | .tuple => modify fun b => b.assign (toUSVString e.1) (toUSVString e.2)
      | .member m => modify fun b => { b with ones := Function.update b.ones m (some (toUSVString e.2)) }
      | .text t => if t = [] then modify fun b => b.push (toUSVString e.1) (toUSVString e.2) else throw .typeError
      | .undefined => modify fun b => b.push (toUSVString e.1) (toUSVString e.2)) b := rfl
  have hmem : b.array.any (·.1 = toUSVString e.1) = true ↔ toUSVString e.1 ∈ b.array.map Prod.fst := by
    simp
  rw [hget, Build.lookup]
  by_cases ha : b.array.any (·.1 = toUSVString e.1) = true
  · rw [if_pos ha]
    exact .tuple (hmem.mp ha)
  · have hnot := hmem.not.mp ha
    rw [if_neg ha, member?_toUSVString]
    cases hm : member? e.1 with
    | some m => exact .member m hm
    | none =>
      dsimp only
      by_cases ho : toUSVString e.1 = one
      · have he := (toUSVString_eq_name one_ascii e.1).mp ho
        rw [if_pos ho]
        cases ht : b.ones .proto with
        | none => exact .push hnot hm fun _ => Or.inl ht
        | some t =>
          dsimp only
          by_cases hnil : t = []
          · rw [if_pos hnil]
            exact .push hnot hm fun _ => Or.inr (hnil ▸ ht)
          · rw [if_neg hnil]
            exact .throws t he ht hnil
      · rw [if_neg ho]
        exact .push hnot hm fun he => absurd ((toUSVString_eq_name one_ascii e.1).mpr he) ho

/-! ## The whole record -/

/-- The names, of which none is a member's. -/
def Build.names (b : Build) : List JsString := b.array.map Prod.fst

theorem names_assign (b : Build) (value : JsString) (h : name ∈ b.names) : (b.assign name value).names = b.names := by
  obtain ⟨before, after, hsplit, hbefore⟩ := eq_append_cons_of_mem h
  obtain ⟨l, l', harray, rfl, hl'⟩ := map_eq_append_iff.mp hsplit
  obtain ⟨x, l'', rfl, hx, rfl⟩ := map_eq_cons_iff.mp hl'
  have hno : ∀ y ∈ l, y.1 ≠ name := fun y hy he => hbefore (he ▸ List.mem_map_of_mem hy)
  rw [Build.names, Build.assign, harray, put_old hx hno, Build.names, harray]
  simp [hx]

theorem names_push (b : Build) (name value : JsString) : (b.push name value).names = b.names ++ [name] := by
  simp [Build.names, Build.push]

theorem visit_keeps_name (e : JsString × JsString) (name : JsString) : Keeps (fun b => name ∈ Build.names b) (visit e) := by
  intro b hb
  have h := visits b e
  generalize exec (visit e) b = r at h
  cases h with
  | tuple hmem =>
    show name ∈ (b.assign _ _).names
    rwa [names_assign b _ hmem]
  | member m hm => exact hb
  | push hno hm hone =>
    show name ∈ (b.push _ _).names
    rw [names_push]
    exact mem_append_left _ hb
  | throws t he ht hne => exact hb

theorem visit_keeps_members (e : JsString × JsString) : Keeps (fun b => ∀ name ∈ Build.names b, member? name = none) (visit e) := by
  intro b hb
  have h := visits b e
  generalize exec (visit e) b = r at h
  cases h with
  | tuple hmem =>
    show ∀ name ∈ (b.assign _ _).names, _
    rwa [names_assign b _ hmem]
  | member m hm => exact hb
  | push hno hm hone =>
    show ∀ name ∈ (b.push _ _).names, _
    rw [names_push]
    intro name hname
    rcases mem_append.mp hname with hname | hname
    · exact hb name hname
    · rw [mem_singleton.mp hname, member?_toUSVString]
      exact hm
  | throws t he ht hne => exact hb

variable {record : List (JsString × JsString)} {b b' : Build}

theorem forM_names (h : exec (record.forM visit) b = (.ok (), b')) :
    ∀ e ∈ record, member? e.1 = none → toUSVString e.1 ∈ b'.names := by
  induction record generalizing b with
  | nil => exact fun e he => absurd he not_mem_nil
  | cons e record ih =>
    have hv := visits b e
    rw [exec_forM_cons, exec_bind] at h
    generalize exec (visit e) b = r at hv h
    obtain ⟨r, b1⟩ := r
    cases r with
    | error err => cases h
    | ok u =>
      refine forall_mem_cons.mpr ⟨fun hm => ?_, ih h⟩
      have hname : toUSVString e.1 ∈ b1.names := by
        cases hv with
        | tuple hmem => rwa [names_assign b _ hmem]
        | member m hm' =>
          rw [hm] at hm'
          cases hm'
        | push hno hm' hone =>
          rw [names_push]
          exact mem_append_right _ mem_cons_self
      have hkeep : Keeps (fun b => toUSVString e.1 ∈ Build.names b) (record.forM visit) :=
        keeps_forM fun e' _ => visit_keeps_name e' (toUSVString e.1)
      have hend := hkeep b1 hname
      rwa [show exec (record.forM visit) b1 = (.ok (), b') from h] at hend

theorem member?_wellFormed {m : Member} (h : member? key = some m) : WellFormed key := by
  obtain ⟨entry, hfind, -⟩ := map_eq_some_iff.mp h
  have hkey : entry.1 = key := by simpa using find?_some hfind
  exact hkey ▸ (members_ascii entry (mem_of_find?_eq_some hfind)).wellFormed

/-- Without members' names the loop leaves `Object.prototype` alone, so it answers for `1` as before. -/
theorem forM_one (h : exec (record.forM visit) b = (.ok (), b'))
    (hm : ∀ e ∈ record, member? e.1 = none) (hnames : one ∉ b.names) :
    ∀ e ∈ record, e.1 = one → b.ones .proto = none ∨ b.ones .proto = some [] := by
  induction record generalizing b with
  | nil => exact fun e he => absurd he not_mem_nil
  | cons e record ih =>
    obtain ⟨hme, hmrest⟩ := forall_mem_cons.mp hm
    have hname : toUSVString e.1 = one ↔ e.1 = one := toUSVString_eq_name one_ascii e.1
    have hv := visits b e
    rw [exec_forM_cons, exec_bind] at h
    generalize exec (visit e) b = r at hv h
    cases hv with
    | tuple hmem =>
      refine forall_mem_cons.mpr ⟨fun he => absurd (hname.mpr he ▸ hmem) hnames, ih (b := b.assign (toUSVString e.1) (toUSVString e.2)) h hmrest ?_⟩
      rwa [names_assign b _ hmem]
    | member m hm' =>
      rw [hme] at hm'
      cases hm'
    | push hno hm' hone =>
      by_cases he : e.1 = one
      · exact fun _ _ _ => hone he
      · refine forall_mem_cons.mpr ⟨fun he' => absurd he' he, ih (b := b.push (toUSVString e.1) (toUSVString e.2)) h hmrest ?_⟩
        rw [names_push, mem_append, not_or]
        exact ⟨hnames, fun hmem => he (hname.mp (mem_singleton.mp hmem).symm)⟩
    | throws t he ht hne => cases h

theorem forM_exact (hm : ∀ e ∈ record, member? e.1 = none)
    (hone : ∀ e ∈ record, e.1 = one → b.ones .proto = none ∨ b.ones .proto = some []) :
    exec (record.forM visit) b =
      (.ok (), { b with array := (record.map fun e => (toUSVString e.1, toUSVString e.2)).foldl (put Prod.fst) b.array }) := by
  induction record generalizing b with
  | nil => rfl
  | cons e record ih =>
    obtain ⟨hme, hmrest⟩ := forall_mem_cons.mp hm
    obtain ⟨hoe, horest⟩ := forall_mem_cons.mp hone
    -- both branches are `put`
    have hput : exec (visit e) b = (.ok (), b.assign (toUSVString e.1) (toUSVString e.2)) := by
      have hv := visits b e
      generalize exec (visit e) b = r at hv
      cases hv with
      | tuple hmem => rfl
      | member m hm' =>
        rw [hme] at hm'
        cases hm'
      | push hno hm' hone' =>
        have hnew : ∀ t ∈ b.array, t.1 ≠ toUSVString e.1 := fun t ht he => hno (he ▸ List.mem_map_of_mem ht)
        rw [Build.push, Build.assign, put_new hnew]
      | throws t he ht hne =>
        rcases hoe he with h | h
        · rw [h] at ht
          cases ht
        · rw [h] at ht
          cases ht
          exact absurd rfl hne
    rw [exec_forM_cons, exec_bind_ok hput, ih (b := b.assign (toUSVString e.1) (toUSVString e.2)) hmrest horest, map_cons, foldl_cons]
    rfl

/-- What a record must be like; `ones` is property 1 of the members before the call. -/
structure Plain (record : List (JsString × JsString)) (ones : Member → Option JsString) : Prop where
  members : ∀ e ∈ record, member? e.1 = none
  one : ∀ e ∈ record, e.1 = one → ones .proto = none ∨ ones .proto = some []
  keys : ∀ e ∈ record, ¬Misread e.1
  /-- of the keys that are converted to one text, the last -/
  values : ∀ e ∈ lastWins (fun e => scalar e.1) record, ¬Misread e.2

theorem expected_names (record : List (JsString × JsString)) :
    name ∈ (expected record).map Prod.fst ↔ ∃ e ∈ record, scalar e.1 = name := by
  rw [expected, mem_lastWins_keys]
  simp

theorem expected_eq (record : List (JsString × JsString)) :
    expected record = (lastWins (fun e => scalar e.1) record).map fun e => (scalar e.1, scalar e.2) := lastWins_map _ _ _

/-- The list is the expected one as far as the values are converted as the standard has it. -/
theorem foldl_expected (hkeys : ∀ e ∈ record, ¬Misread e.1) :
    (record.map fun e => (toUSVString e.1, toUSVString e.2)).foldl (put Prod.fst) [] = expected record ↔
      ∀ e ∈ lastWins (fun e => scalar e.1) record, ¬Misread e.2 := by
  have hmap : (record.map fun e => (toUSVString e.1, toUSVString e.2)) = record.map fun e => (scalar e.1, toUSVString e.2) :=
    map_congr_left fun e he => by rw [toUSVString_scalar (hkeys e he)]
  rw [hmap, foldl_put, lastWins_map (fun e : JsString × JsString => (scalar e.1, toUSVString e.2)), expected_eq, map_inj_left]
  refine forall₂_congr fun e _ => ?_
  rw [← toUSVString_eq_iff, Prod.mk.injEq, and_iff_right rfl]

theorem record_exact_iff (record : List (JsString × JsString)) (ones : Member → Option JsString) :
    construct record ones = (.ok (), { ones, array := expected record }) ↔ Plain record ones := by
  constructor
  · intro h
    rw [construct] at h
    have hmembers : ∀ e ∈ record, member? e.1 = none := by
      intro e he
      by_contra hm
      obtain ⟨m, hm⟩ := ne_none_iff_exists'.mp hm
      have hwf := member?_wellFormed hm
      have hkeep : Keeps (fun b => ∀ name ∈ Build.names b, member? name = none) (record.forM visit) := keeps_forM fun e _ => visit_keeps_members e
      have hno := hkeep { ones } (by simp [Build.names])
      rw [h] at hno
      have hnone := hno e.1 ((expected_names record).mpr ⟨e, he, hwf.scalar_eq⟩)
      rw [hm] at hnone
      cases hnone
    have hkeys : ∀ e ∈ record, ¬Misread e.1 := by
      intro e he hbad
      obtain ⟨e', -, hname⟩ := (expected_names record).mp (forM_names h e he (hmembers e he))
      refine toUSVString_misread hbad ?_
      rw [← hname, (wellFormed_scalar e'.1).scalar_eq]
    have hone := forM_one h hmembers (by simp [Build.names])
    refine ⟨hmembers, hone, hkeys, (foldl_expected hkeys).mp ?_⟩
    rw [forM_exact hmembers hone] at h
    exact congrArg (fun r => r.2.array) h
  · intro h
    rw [construct, forM_exact h.members h.one, (foldl_expected h.keys).mpr h.values]

/-- `{ constructor: 'x', a: 'y' }`: one pair, and the function `Object` has a property 1. The text U+10000 U+DC00 loses its first character. -/
theorem constructor_lost :
    construct [(js "constructor", js "x"), (js "a", js "y")] (fun _ => none) =
      (.ok (), { ones := Function.update (fun _ => none) .constructor (some (js "x")), array := [(js "a", js "y")] }) ∧
    construct [(js "a", [0xD800, 0xDC00, 0xDC00])] (fun _ => none) =
      (.ok (), { ones := fun _ => none, array := [(js "a", [0xD800, 0xFFFD, 0xFFFD])] }) := ⟨rfl, rfl⟩

end Aworker.Url.Record
