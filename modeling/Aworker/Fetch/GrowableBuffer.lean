/-
  Aworker.Fetch.GrowableBuffer — the buffer that bodies are written to
  (lib/fetch/body_helper.js: `GrowableBuffer`).

  An `ArrayBuffer` and the length of the view of it that is in use. Nothing reads from the
  buffer while it is written, so `#off` is 0 throughout and is left out: what slides down by it
  stays where it is.

  (1) `writeSync_writes`: a write adds its bytes at the end, or throws the maximum-size error;
      it does not throw before there are `2 ^ 31` bytes (`Writes`).
  (2) `Writes.bind`: the same for writes one after the other.
-/

import Mathlib
import Aworker.Fetch.Js

namespace Aworker.Fetch

open List

/-- `MAX_SIZE` -/
def maxSize : Nat := 2 ^ 32 - 2

inductive BufferError where
  /-- `The buffer cannot be grown beyond the maximum size.` -/
  | maximumSize
  /-- `assert` -/
  | assertion
  deriving DecidableEq

/-- `dst` after the bytes of `src` that fit were copied to it. -/
def copyBytes (src dst : Bytes) (off : Nat) : Bytes :=
  let r := dst.length - off
  let src := if r < src.length then src.take r else src
  dst.take off ++ src ++ dst.drop (off + src.length)

theorem copyBytes_length (src dst : Bytes) (off : Nat) : (copyBytes src dst off).length = dst.length := by
  unfold copyBytes
  simp only [length_append, length_take, length_drop]
  split
  · rw [length_take]
    omega
  · omega

variable {src dst : Bytes}

theorem copyBytes_end {off : Nat} (h : off + src.length = dst.length) : copyBytes src dst off = dst.take off ++ src := by
  unfold copyBytes
  simp only [if_neg (show ¬dst.length - off < src.length by omega), h, drop_length, append_nil]

theorem copyBytes_start (h : src.length ≤ dst.length) : copyBytes src dst 0 = src ++ dst.drop src.length := by
  unfold copyBytes
  simp only [if_neg (show ¬dst.length - 0 < src.length by omega), take_zero, nil_append, Nat.zero_add]

structure GrowableBuffer where
  /-- the whole `ArrayBuffer` -/
  buffer : Bytes
  /-- `#uint8View.byteLength` -/
  len : Nat
  len_le : len ≤ buffer.length

namespace GrowableBuffer

def new : GrowableBuffer := ⟨[], 0, le_rfl⟩

def bytes (g : GrowableBuffer) : Bytes := g.buffer.take g.len

def empty (g : GrowableBuffer) : Bool := g.len ≤ 0

def capacity (g : GrowableBuffer) : Nat := g.buffer.length

/-- A view of the first bytes of `buffer`. -/
def reslice (buffer : Bytes) (len : Nat) : Except BufferError GrowableBuffer :=
  if h : len ≤ buffer.length then .ok ⟨buffer, len, h⟩ else .error .assertion

/-- The buffer with room for `num` bytes, and where they go. -/
def grow (g : GrowableBuffer) (num : Nat) : Except BufferError (GrowableBuffer × Nat) :=
  if num ≤ g.capacity - g.len then do
    let g' ← reslice g.buffer (g.len + num)
    .ok (g', g.len)
  else do
    let buffer ←
      if g.len + num ≤ g.capacity / 2 then .ok (copyBytes g.bytes g.bytes 0 ++ g.buffer.drop g.len)
      else if g.capacity + num > maxSize then .error .maximumSize
      else .ok (copyBytes g.bytes (List.replicate (min (2 * g.capacity + num) maxSize) 0) 0)
    let g' ← reslice buffer (min (g.len + num) maxSize)
    .ok (g', g.len)

theorem view_length (g : GrowableBuffer) (p : Bytes) (m : Nat) : g.len ≤ (copyBytes p g.bytes m ++ g.buffer.drop g.len).length := by
  have hle := g.len_le
  rw [length_append, copyBytes_length, bytes, length_take, length_drop]
  omega

def writeSync (g : GrowableBuffer) (p : Bytes) : Except BufferError GrowableBuffer := do
  let (g', m) ← g.grow p.length
  .ok ⟨copyBytes p g'.bytes m ++ g'.buffer.drop g'.len, g'.len, g'.view_length p m⟩

variable {g g' : GrowableBuffer} {num : Nat} {a b p : Bytes} {r : Except BufferError GrowableBuffer}

theorem bytes_length (g : GrowableBuffer) : g.bytes.length = g.len := by
  rw [bytes, length_take, min_eq_left g.len_le]

theorem reslice_ok {buffer : Bytes} {len : Nat} (h : len ≤ buffer.length) : reslice buffer len = .ok ⟨buffer, len, h⟩ := dif_pos h

def HasRoom (g : GrowableBuffer) (num : Nat) : Prop := g.len + num ≤ g.capacity ∨ g.capacity + num ≤ maxSize

def grown (g : GrowableBuffer) (num : Nat) : Nat := if g.len + num ≤ g.capacity then g.capacity else min (2 * g.capacity + num) maxSize

theorem grown_le (g : GrowableBuffer) (num : Nat) : g.grown num ≤ max g.capacity maxSize := by
  unfold grown
  split
  · exact le_max_left _ _
  · exact (min_le_right _ _).trans (le_max_right _ _)

theorem grow_ok (h : g.HasRoom num) :
    ∃ g', g.grow num = .ok (g', g.len) ∧ g'.len = g.len + num ∧ g'.buffer.take g.len = g.bytes ∧ g'.capacity = g.grown num := by
  have hle := g.len_le
  unfold grow grown capacity
  by_cases hfit : num ≤ g.buffer.length - g.len
  · have hroom : g.len + num ≤ g.buffer.length := by omega
    rw [if_pos hfit, if_pos hroom, reslice_ok hroom]
    exact ⟨_, rfl, rfl, rfl, rfl⟩
  · -- the old contents are never moved within a buffer that is too small for them
    have hslide : ¬g.len + num ≤ g.buffer.length / 2 := by omega
    have hmax : g.buffer.length + num ≤ maxSize := by
      rcases h with h | h
      · unfold capacity at h
        omega
      · exact h
    rw [if_neg hfit, if_neg hslide, if_neg (Nat.not_lt.mpr hmax), if_neg (show ¬g.len + num ≤ g.buffer.length by omega)]
    have hsize : (List.replicate (min (2 * g.buffer.length + num) maxSize) (0 : UInt8)).length = min (2 * g.buffer.length + num) maxSize :=
      length_replicate
    have hnew : min (g.len + num) maxSize = g.len + num := by omega
    have hold : g.bytes.length ≤ min (2 * g.buffer.length + num) maxSize := by
      rw [bytes_length]
      omega
    have hroom : g.len + num ≤ (copyBytes g.bytes (List.replicate (min (2 * g.buffer.length + num) maxSize) 0) 0).length := by
      rw [copyBytes_length, hsize]
      omega
    refine ⟨⟨_, g.len + num, hroom⟩, ?_, rfl, ?_, ?_⟩
    · rw [hnew]
      exact congrArg (· >>= fun g' => Except.ok (g', g.len)) (reslice_ok hroom)
    · show (copyBytes g.bytes _ 0).take g.len = g.bytes
      rw [copyBytes_start (by rw [hsize]; exact hold), take_append_of_le_length (bytes_length g).ge,
        take_of_length_le (bytes_length g).le]
    · show (copyBytes g.bytes _ 0).length = _
      rw [copyBytes_length, hsize]

theorem grow_error (h : ¬g.HasRoom num) : g.grow num = .error .maximumSize := by
  have hle := g.len_le
  obtain ⟨hfit, hmax⟩ := not_or.mp h
  unfold capacity at hfit hmax
  unfold grow capacity
  rw [if_neg (by omega), if_neg (show ¬g.len + num ≤ g.buffer.length / 2 by omega), if_pos (by omega)]
  rfl

theorem writeSync_ok (h : g.HasRoom p.length) :
    ∃ g', g.writeSync p = .ok g' ∧ g'.bytes = g.bytes ++ p ∧ g'.capacity = g.grown p.length := by
  obtain ⟨g1, hg, hlen, hold, hcap⟩ := grow_ok h
  have hend : g.len + p.length = g1.bytes.length := by rw [bytes_length, hlen]
  refine ⟨⟨copyBytes p g1.bytes g.len ++ g1.buffer.drop g1.len, g1.len, g1.view_length p g.len⟩, ?_, ?_, ?_⟩
  · rw [writeSync, hg]
    rfl
  · show (copyBytes p g1.bytes g.len ++ g1.buffer.drop g1.len).take g1.len = _
    have hcopy : (copyBytes p g1.bytes g.len).length = g1.len := by rw [copyBytes_length, bytes_length]
    have htake : g1.bytes.take g.len = g.bytes := by
      rw [bytes, take_take, min_eq_left (by omega), hold]
    rw [take_append_of_le_length hcopy.ge, take_of_length_le hcopy.le, copyBytes_end hend, htake]
  · have hle := g1.len_le
    show (copyBytes p g1.bytes g.len ++ g1.buffer.drop g1.len).length = _
    rw [length_append, copyBytes_length, bytes_length, length_drop, Nat.add_sub_of_le hle]
    exact hcap

theorem writeSync_error (h : ¬g.HasRoom p.length) : g.writeSync p = .error .maximumSize := by
  rw [writeSync, grow_error h]
  rfl

/-! ## Writes -/

/-- The bytes are added, or there are too many of them. -/
def Writes (g : GrowableBuffer) (out : Bytes) (r : Except BufferError GrowableBuffer) : Prop :=
  (r = .error .maximumSize ∧ 2 ^ 31 ≤ g.bytes.length + out.length) ∨
    ∃ g', r = .ok g' ∧ g'.bytes = g.bytes ++ out ∧ g'.capacity ≤ max g.capacity maxSize

theorem writeSync_writes (g : GrowableBuffer) (p : Bytes) : Writes g p (g.writeSync p) := by
  by_cases h : g.HasRoom p.length
  · obtain ⟨g', hg, hbytes, hcap⟩ := writeSync_ok h
    exact Or.inr ⟨g', hg, hbytes, hcap.trans_le (g.grown_le p.length)⟩
  · refine Or.inl ⟨writeSync_error h, ?_⟩
    obtain ⟨hfit, hmax⟩ := not_or.mp h
    rw [bytes_length]
    unfold maxSize at hmax
    omega

theorem Writes.bind {k : GrowableBuffer → Except BufferError GrowableBuffer} (h : Writes g a r)
    (hk : ∀ g', g'.bytes = g.bytes ++ a → Writes g' b (k g')) : Writes g (a ++ b) (r >>= k) := by
  rcases h with ⟨rfl, hlarge⟩ | ⟨g1, rfl, h1, hcap1⟩
  · refine Or.inl ⟨rfl, ?_⟩
    rw [length_append]
    omega
  · rcases hk g1 h1 with ⟨he, hlarge⟩ | ⟨g2, he, h2, hcap2⟩
    · refine Or.inl ⟨he, ?_⟩
      rw [h1, length_append] at hlarge
      rw [length_append]
      omega
    · exact Or.inr ⟨g2, he, by rw [h2, h1, append_assoc], hcap2.trans (max_le hcap1 (le_max_right _ _))⟩

theorem Writes.length_le (h : Writes new a (.ok g)) : g.bytes = a ∧ a.length ≤ maxSize := by
  rcases h with ⟨he, -⟩ | ⟨g', he, hbytes, hcap⟩
  · cases he
  · cases he
    have ha : g.bytes = a := hbytes
    have hle := g.len_le
    refine ⟨ha, ?_⟩
    rw [← ha, bytes_length]
    exact hle.trans hcap

end GrowableBuffer

end Aworker.Fetch
