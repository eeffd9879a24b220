/-
  Aworker.AgentChannel.StreamTable — the streams the agent pushes into
  (lib/agent_channel.js: `createReadableStream`, the `streamPush` handler,
  `closeReadableStream`, `abortReadableStream`).

  Each stream in `readableControllerMap` holds one reference of the channel, given back
  when its entry is deleted. In the `streamPush` handler and in `closeReadableStream` the
  deletion comes after `controller.close()`, which throws when the consumer has cancelled
  the stream; the rest of the function is then skipped.

  - `tableStep_ok`: entries and references stay matched, also when a call throws.
  Also `stream_table_iff`.
-/

import Aworker.Lib.Map
import Aworker.Lib.Run
import Aworker.Streams.Readable

namespace Aworker.AgentChannel

open List Option

open Std (TreeMap)
open Aworker.Lib (run run_inv Along Reached reached_iff_along size_erase_add_one mem_of_get get_of_mem)
open Aworker.Streams (Readable)

variable (ρ : Type)

/-! ## The table -/

abbrev Sid := UInt32

/-- `new TypeError('Peer reset stream')`, or what `abortReadableStream` was given. -/
inductive StreamError where
  | peerReset
  | reason (r : ρ)

/-- A stream and the id `createReadableStream` wrote on it. -/
structure AgentStream where
  sid : Sid
  readable : Readable (List UInt8) (StreamError ρ) := {}

structure Table where
  /-- all streams ever made -/
  streams : List (AgentStream ρ) := []
  /-- `readableControllerMap`; a controller is its stream's place in `streams` -/
  controllers : TreeMap Sid Nat := ∅
  /-- `_ac.ref()`s and `_ac.unref()`s -/
  refs : Nat := 0
  unrefs : Nat := 0
  /-- the ids a push with `isEos` or `isError` was handled for -/
  ended : List Sid := []

/-- `readableControllerMap.get(sid)` -/
def controller (s : Table ρ) (sid : Sid) : Option (Nat × AgentStream ρ) :=
  (s.controllers[sid]?).bind fun i => (s.streams[i]?).map fun a => (i, a)

def put (s : Table ρ) (i : Nat) (r : Readable (List UInt8) (StreamError ρ)) : Table ρ :=
  { s with streams := s.streams.modify i fun a => { a with readable := r } }

/-- `readableControllerMap.delete(sid); _ac.unref();` -/
def remove (s : Table ρ) (sid : Sid) : Table ρ :=
  { s with controllers := s.controllers.erase sid, unrefs := s.unrefs + 1 }

def createReadableStream (s : Table ρ) (sid : Sid) : Table ρ :=
  { s with
    streams := s.streams ++ [{ sid := sid }]
    controllers := s.controllers.insert sid s.streams.length
    refs := s.refs + 1 }

/-- The handler after its feedback. -/
def streamPush (s : Table ρ) (sid : Sid) (isEos isError : Bool) (data : List UInt8) : Table ρ :=
  match controller ρ s sid with
  | none => s
  | some (i, a) =>
    if isError then remove ρ (put ρ s i (a.readable.error .peerReset)) sid
    else if isEos then
      match a.readable.close with
      | .error _ => s
      | .ok r => remove ρ (put ρ s i r) sid
    else
      match a.readable.enqueue data with
      | .error _ => s
      | .ok r => put ρ s i r

/-- `none` is a stream without an id. -/
def closeReadableStream (s : Table ρ) (sid : Option Sid) : Table ρ :=
  match sid.bind fun sid => (controller ρ s sid).map fun c => (sid, c) with
  | none => s
  | some (sid, i, a) =>
    match a.readable.close with
    | .error _ => s
    | .ok r => remove ρ (put ρ s i r) sid

def abortReadableStream (s : Table ρ) (sid : Option Sid) (reason : ρ) : Table ρ :=
  match sid.bind fun sid => (controller ρ s sid).map fun c => (sid, c) with
  | none => s
  | some (sid, i, a) => remove ρ (put ρ s i (a.readable.error (.reason reason))) sid

inductive TableEv where
  | create (sid : Sid)
  | push (sid : Sid) (isEos isError : Bool) (data : List UInt8)
  /-- the stream's place in `streams`; `none` is a stream made elsewhere -/
  | close (stream : Option Nat)
  | abort (stream : Option Nat) (reason : ρ)
  | consume (stream : Nat) (op : Readable.Op)

def TableEv.ends : TableEv ρ → Option Sid
  | .push sid isEos isError _ => if isEos || isError then some sid else none
  | _ => none

/-- `readableStream[agent_channel_stream_id_symbol]` -/
def streamId (s : Table ρ) (stream : Option Nat) : Option Sid := stream.bind fun i => (s.streams[i]?).map AgentStream.sid

def tableStep (s : Table ρ) : TableEv ρ → Option (Table ρ)
  | .create sid => some (createReadableStream ρ s sid)
  | .push sid isEos isError data =>
    some { streamPush ρ s sid isEos isError data with ended := ((TableEv.push sid isEos isError data).ends ρ).toList ++ s.ended }
  | .close stream => some (closeReadableStream ρ s (streamId ρ s stream))
  | .abort stream reason => some (abortReadableStream ρ s (streamId ρ s stream) reason)
  | .consume i op => (s.streams[i]?).map fun a => put ρ s i (a.readable.consume op)

/-! ## Entries and references -/

/-- Entries lead to open streams of their id, and hold one reference each. -/
structure TableOk (s : Table ρ) : Prop where
  entry : ∀ (sid : Sid) (i : Nat), s.controllers[sid]? = some i →
    ∃ a, s.streams[i]? = some a ∧ a.sid = sid ∧ a.readable.Open
  count : s.refs = s.unrefs + s.controllers.size

def Distinct (s : Table ρ) : TableEv ρ → Prop
  | .create sid => ∀ a ∈ s.streams, a.sid ≠ sid
  | _ => True

/-- The id has an entry, and the consumer has cancelled its stream. -/
def cancelled (s : Table ρ) (sid : Sid) : Bool := (controller ρ s sid).any fun c => c.2.readable.isClosed

/-- The event ends an id and leaves its entry, or makes an entry for an id that has ended. -/
def Strands (s : Table ρ) : TableEv ρ → Prop
  | .create sid => sid ∈ s.ended
  | .push sid true false _ => cancelled ρ s sid = true
  | _ => False

inductive TableMove (s : Table ρ) : TableEv ρ → Table ρ → Prop
  | create (sid : Sid) : TableMove s (.create sid) (createReadableStream ρ s sid)
  | touch (e : TableEv ρ) (i : Nat) (a : AgentStream ρ) (r : Readable (List UInt8) (StreamError ρ)) :
      s.streams[i]? = some a → (a.readable.Open → r.Open) → e.ends = none → ¬ Strands ρ s e → TableMove s e (put ρ s i r)
  | remove (e : TableEv ρ) (sid : Sid) (i : Nat) (r : Readable (List UInt8) (StreamError ρ)) : s.controllers[sid]? = some i →
      (∀ x, e.ends = some x → x = sid) → ¬ Strands ρ s e →
      TableMove s e { remove ρ (put ρ s i r) sid with ended := e.ends.toList ++ s.ended }
  | idle (e : TableEv ρ) : (∀ x, e.ends = some x → x ∉ s.controllers) → ¬ Strands ρ s e →
      TableMove s e { s with ended := e.ends.toList ++ s.ended }
  | strand (sid : Sid) (data : List UInt8) : sid ∈ s.controllers → Strands ρ s (.push sid true false data) →
      TableMove s (.push sid true false data) { s with ended := sid :: s.ended }

variable {s : Table ρ} {sid : Sid}

theorem controller_some (h : TableOk ρ s) (hm : sid ∈ s.controllers) :
    ∃ i a, controller ρ s sid = some (i, a) ∧ s.controllers[sid]? = some i ∧ s.streams[i]? = some a ∧ a.readable.Open := by
  obtain ⟨i, hi⟩ := get_of_mem hm
  obtain ⟨a, ha, -, ho⟩ := h.entry sid i hi
  exact ⟨i, a, by simp [controller, hi, ha], hi, ha, ho⟩

theorem controller_none (hm : sid ∉ s.controllers) : controller ρ s sid = none := by
  simp [controller, TreeMap.getElem?_eq_none hm]

theorem push_ends {x : Sid} {isEos isError : Bool} {data : List UInt8}
    (h : (TableEv.push sid isEos isError data).ends ρ = some x) : x = sid := by
  simp only [TableEv.ends] at h
  split at h
  · exact (Option.some.inj h).symm
  · cases h

theorem streamPush_moves (h : TableOk ρ s) (sid : Sid) (isEos isError : Bool) (data : List UInt8) :
    TableMove ρ s (.push sid isEos isError data)
      { streamPush ρ s sid isEos isError data with ended := ((TableEv.push sid isEos isError data).ends ρ).toList ++ s.ended } := by
  by_cases hm : sid ∈ s.controllers
  · obtain ⟨i, a, hc, hi, ha, ho⟩ := controller_some ρ h hm
    unfold streamPush
    rw [hc]
    have hends : ∀ x, (TableEv.push sid isEos isError data).ends ρ = some x → x = sid := fun x hx => push_ends ρ hx
    cases isError with
    | true => exact .remove _ sid i _ hi hends (by cases isEos <;> exact id)
    | false =>
      cases isEos with
      | true =>
        rcases Readable.close_open ho with ⟨hclosed, r, hr⟩ | ⟨hclosed, m, hr⟩
        · simp only [hr]
          exact .remove _ sid i _ hi hends (by simp [Strands, cancelled, hc, hclosed])
        · simp only [hr]
          exact .strand sid data hm (by simp [Strands, cancelled, hc, hclosed])
      | false =>
        cases hr : a.readable.enqueue data with
        | error m =>
          simp only [hr]
          exact .idle _ (fun x hx => nomatch hx) id
        | ok r =>
          simp only [hr]
          exact .touch _ i a r ha (fun ho => Readable.enqueue_open ho hr) rfl id
  · have hno : ¬ Strands ρ s (.push sid isEos isError data) := by
      intro hst
      unfold Strands at hst
      split at hst
      · cases ‹TableEv.push _ _ _ _ = _›
      · cases ‹TableEv.push _ _ _ _ = _›
        simp [cancelled, controller_none ρ hm] at hst
      · exact hst
    have hpush : streamPush ρ s sid isEos isError data = s := by unfold streamPush; rw [controller_none ρ hm]
    rw [hpush]
    exact .idle _ (fun x hx => push_ends ρ hx ▸ hm) hno

/-- `closeReadableStream` and `abortReadableStream` look the stream's id up. -/
theorem lookup_cases (h : TableOk ρ s) (sid : Option Sid) :
    (sid.bind fun sid => (controller ρ s sid).map fun c => (sid, c)) = none ∨
      ∃ id i a, (sid.bind fun sid => (controller ρ s sid).map fun c => (sid, c)) = some (id, i, a) ∧
        s.controllers[id]? = some i ∧ a.readable.Open := by
  cases sid with
  | none => exact Or.inl rfl
  | some id =>
    by_cases hm : id ∈ s.controllers
    · obtain ⟨i, a, hc, hi, -, ho⟩ := controller_some ρ h hm
      exact Or.inr ⟨id, i, a, by simp [hc], hi, ho⟩
    · exact Or.inl (by simp [controller_none ρ hm])

variable {s' : Table ρ} {e : TableEv ρ}

theorem tableStep_moves (h : TableOk ρ s) (hs : tableStep ρ s e = some s') : TableMove ρ s e s' := by
  cases e with
  | create sid =>
    obtain rfl := Option.some.inj hs
    exact .create sid
  | push sid isEos isError data =>
    obtain rfl := Option.some.inj hs
    exact streamPush_moves ρ h sid isEos isError data
  | close stream =>
    obtain rfl := Option.some.inj hs
    unfold closeReadableStream
    rcases lookup_cases ρ h (streamId ρ s stream) with hn | ⟨id, i, a, hc, hi, ho⟩
    · rw [hn]; exact .idle _ (fun x hx => nomatch hx) fun hu => hu
    · rw [hc]
      rcases Readable.close_open ho with ⟨-, r, hr⟩ | ⟨-, m, hr⟩
      · simp only [hr]; exact .remove _ id i r hi (fun x hx => nomatch hx) fun hu => hu
      · simp only [hr]; exact .idle _ (fun x hx => nomatch hx) fun hu => hu
  | abort stream reason =>
    obtain rfl := Option.some.inj hs
    unfold abortReadableStream
    rcases lookup_cases ρ h (streamId ρ s stream) with hn | ⟨id, i, a, hc, hi, ho⟩
    · rw [hn]; exact .idle _ (fun x hx => nomatch hx) fun hu => hu
    · rw [hc]; exact .remove _ id i _ hi (fun x hx => nomatch hx) fun hu => hu
  | consume i op =>
    obtain ⟨a, ha, rfl⟩ := map_eq_some_iff.mp hs
    exact .touch _ i a _ ha (fun ho => Readable.consume_open ho op) rfl fun hu => hu

/-! ## What the moves keep -/

theorem put_get (s : Table ρ) (i j : Nat) (r : Readable (List UInt8) (StreamError ρ)) :
    (put ρ s i r).streams[j]? = (s.streams[j]?).map fun a => if i = j then { a with readable := r } else a := by
  simp only [put, getElem?_modify]
  split <;> simp

theorem put_entry {i j : Nat} {r : Readable (List UInt8) (StreamError ρ)}
    (h : ∃ a, s.streams[j]? = some a ∧ a.sid = sid ∧ a.readable.Open) (hr : i = j → r.Open) :
    ∃ a, (put ρ s i r).streams[j]? = some a ∧ a.sid = sid ∧ a.readable.Open := by
  obtain ⟨a, ha, hsid, ho⟩ := h
  rw [put_get, ha]
  by_cases hij : i = j
  · exact ⟨{ a with readable := r }, by simp only [map_some, if_pos hij], hsid, hr hij⟩
  · exact ⟨a, by simp only [map_some, if_neg hij], hsid, ho⟩

theorem tableStep_ok (h : TableOk ρ s) (hd : Distinct ρ s e) (hs : tableStep ρ s e = some s') : TableOk ρ s' := by
  cases tableStep_moves ρ h hs with
  | create sid =>
    have hfresh : sid ∉ s.controllers := by
      intro hm
      obtain ⟨i, a, -, hi, ha, -⟩ := controller_some ρ h hm
      obtain ⟨a', ha', hsid, -⟩ := h.entry sid i hi
      exact hd a' (mem_of_getElem? ha') hsid
    refine ⟨fun id i hi => ?_, ?_⟩
    · simp only [createReadableStream, TreeMap.getElem?_insert] at hi
      by_cases he : sid = id
      · subst he
        obtain rfl : s.streams.length = i := by simpa using hi
        exact ⟨{ sid := sid }, by simp [createReadableStream], rfl, Readable.new_open⟩
      · obtain ⟨a, ha, hrest⟩ := h.entry id i (by simpa [he] using hi)
        exact ⟨a, (getElem?_append_left (List.getElem?_eq_some_iff.mp ha).1).trans ha, hrest⟩
    · have hc := h.count
      have hsize : (s.controllers.insert sid s.streams.length).size = s.controllers.size + 1 := by
        simp [TreeMap.size_insert, hfresh]
      show s.refs + 1 = s.unrefs + (s.controllers.insert sid s.streams.length).size
      omega
  | touch _ i a r ha hopen _ _ =>
    refine ⟨fun id j hj => ?_, h.count⟩
    have hent := h.entry id j hj
    refine put_entry ρ hent ?_
    intro hij
    subst hij
    obtain ⟨a', ha', -, ho⟩ := hent
    rw [ha] at ha'
    exact hopen (Option.some.inj ha' ▸ ho)
  | remove _ sid i r hi _ _ =>
    refine ⟨fun id j hj => ?_, ?_⟩
    · simp only [remove, put, TreeMap.getElem?_erase] at hj
      by_cases he : sid = id
      · simp [he] at hj
      · have hj : s.controllers[id]? = some j := by simpa [he] using hj
        refine put_entry ρ (h.entry id j hj) ?_
        intro hij
        -- one stream carries one id
        subst hij
        obtain ⟨a, ha, hsid, -⟩ := h.entry sid i hi
        obtain ⟨a', ha', hsid', -⟩ := h.entry id i hj
        rw [ha] at ha'
        exact absurd (hsid.symm.trans (Option.some.inj ha' ▸ hsid')) he
    · have hc := h.count
      have hsize := size_erase_add_one (mem_of_get hi : sid ∈ s.controllers)
      show s.refs = s.unrefs + 1 + (s.controllers.erase sid).size
      omega
  | idle _ _ _ => exact ⟨h.entry, h.count⟩
  | strand sid data _ _ => exact ⟨h.entry, h.count⟩

def Cleared (s : Table ρ) : Prop := ∀ sid ∈ s.ended, sid ∉ s.controllers

theorem tableStep_cleared_iff (h : TableOk ρ s) (hc : Cleared ρ s)
    (hs : tableStep ρ s e = some s') : Cleared ρ s' ↔ ¬ Strands ρ s e := by
  cases tableStep_moves ρ h hs with
  | create sid =>
    constructor
    · intro hc' hu
      exact hc' sid hu (TreeMap.mem_insert_self)
    · intro hu id hid hm
      rcases TreeMap.mem_insert.mp hm with he | hm
      · obtain rfl := Std.LawfulEqOrd.eq_of_compare he
        exact hu hid
      · exact hc id hid hm
  | touch _ i a r _ _ _ hu => exact iff_of_true hc hu
  | remove _ sid i r _ hends hu =>
    refine iff_of_true ?_ hu
    intro id hid hm
    have hm := TreeMap.mem_erase.mp hm
    rcases mem_append.mp hid with hid | hid
    · obtain rfl := hends id (mem_toList.mp hid)
      exact hm.1 Std.ReflCmp.compare_self
    · exact hc id hid hm.2
  | idle _ hends hu =>
    refine iff_of_true ?_ hu
    intro id hid
    rcases mem_append.mp hid with hid | hid
    · exact hends id (mem_toList.mp hid)
    · exact hc id hid
  | strand sid data hm hu =>
    exact iff_of_false (fun hc' => hc' sid mem_cons_self hm) (not_not.mpr hu)

/-- Over every order of creations with distinct ids, pushes, closes, aborts and the
    consumers' calls: in every state the references out are the entries and every ended id
    has lost its entry, exactly if no event of the run `Strands`. -/
theorem stream_table_iff {t : Table ρ} {evs : List (TableEv ρ)} (hr : run (tableStep ρ) {} evs = some t)
    (hd : Along (tableStep ρ) (Distinct ρ) {} evs) :
    (∀ u, Reached (tableStep ρ) {} evs u →
        u.refs - u.unrefs = u.controllers.size ∧ u.unrefs ≤ u.refs ∧ ∀ sid ∈ u.ended, sid ∉ u.controllers) ↔
      Along (tableStep ρ) (fun s e => ¬ Strands ρ s e) {} evs := by
  have h0 : TableOk ρ {} := ⟨fun sid i hi => by simp at hi, rfl⟩
  refine reached_iff_along (fun s e s' h hd hs => tableStep_ok ρ h hd hs) ?_ h0 ⟨rfl, le_rfl, fun sid hsid => by cases hsid⟩ hd hr
  intro s e s' h hd hp hs
  have hcount := (tableStep_ok ρ h hd hs).count
  rw [← tableStep_cleared_iff ρ h hp.2.2 hs]
  exact ⟨fun hp' => hp'.2.2, fun hc => ⟨by omega, by omega, hc⟩⟩

instance (s : Table ρ) : DecidablePred (Strands ρ s)
  | .create sid => inferInstanceAs (Decidable (sid ∈ s.ended))
  | .push sid true false _ => inferInstanceAs (Decidable (cancelled ρ s sid = true))
  | .push _ false _ _ | .push _ true true _ | .close _ | .abort _ _ | .consume _ _ => isFalse id

instance (s : Table ρ) : DecidablePred (Distinct ρ s)
  | .create sid => inferInstanceAs (Decidable (∀ a ∈ s.streams, a.sid ≠ sid))
  | .push _ _ _ _ | .close _ | .abort _ _ | .consume _ _ => isTrue trivial

/-- Two streams: the first is cancelled and then reset by the agent, the second is read and
    ended; a third is closed by the worker, and a late end for it is ignored. -/
def twoAndLate : List (TableEv Unit) := [.create 1, .create 2, .consume 0 .cancel, .push 1 false false [7], .push 2 false false [8],
  .push 1 true true [], .consume 1 .getReader, .consume 1 .read, .push 2 true false [], .create 3, .close (some 2), .push 3 true false []]

theorem stream_table_late : (run (tableStep Unit) {} twoAndLate).isSome = true ∧ ∀ u, Reached (tableStep Unit) {} twoAndLate u →
    u.refs - u.unrefs = u.controllers.size ∧ u.unrefs ≤ u.refs ∧ ∀ sid ∈ u.ended, sid ∉ u.controllers :=
  ⟨rfl, (stream_table_iff Unit (show run (tableStep Unit) {} twoAndLate = some _ from rfl) (by decide)).mpr (by decide)⟩

/-- The consumer cancels, and the agent ends the stream: its entry stays. -/
theorem cancelled_entry_stays : ∃ t, run (tableStep Unit) {} [.create 1, .consume 0 .cancel, .push 1 true false []] = some t ∧
    1 ∈ t.ended ∧ 1 ∈ t.controllers ∧ t.refs = 1 ∧ t.unrefs = 0 :=
  ⟨_, rfl, by decide, by decide, rfl, rfl⟩

/-- With distinct ids, stranded or not: every entry leads to an open stream of its id, and the references out are the entries. -/
theorem entries_open {t : Table ρ} {evs : List (TableEv ρ)} (hr : run (tableStep ρ) {} evs = some t)
    (hd : Along (tableStep ρ) (Distinct ρ) {} evs) : TableOk ρ t :=
  run_inv (fun _ _ _ h hd hs => tableStep_ok ρ h hd hs) ⟨fun sid i hi => by simp at hi, rfl⟩ hd hr

theorem entries_open_late : ∃ t, run (tableStep Unit) {} twoAndLate = some t ∧ TableOk Unit t :=
  ⟨_, rfl, entries_open Unit (show run (tableStep Unit) {} twoAndLate = some _ from rfl) (by decide)⟩

end Aworker.AgentChannel
