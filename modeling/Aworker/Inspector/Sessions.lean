/-
  Aworker.Inspector.Sessions — inspector sessions over the diagnostics channel
  (src/agent_channel/noslated_diag_channel.cc, src/inspector/inspector_io.cc).

  The agent opens and closes inspector sessions by id. The delegate keeps a map from ids
  to sessions; the channel keeps `opened_session_count_`, a `uint32_t` that every start
  raises and every end lowers, whatever the ids were. An end is passed on to the delegate
  only while the count is not zero, and is answered `OK` either way.

  - `inStep_run`: the count never falls below the number of sessions while the agent ends
    only sessions that are open, so `endsSession_of_polite`.
  Also `endsSession_iff`, `unknown_end_strands`.
-/

import Aworker.Lib.Map
import Aworker.Ipc.Message

namespace Aworker.Inspector

open List

open Std (TreeMap)
open Aworker.Ipc (CanonicalCode)

/-! ## The delegate and the channel -/

/-- A `CrossThreadInspectorSession`: the number of its `Connect`, and what was dispatched to it. -/
structure Session where
  id : Nat
  dispatched : List String := []
  deriving DecidableEq, Repr

structure InspectorIoDelegate where
  sessions : TreeMap Int Session := ∅

/-- `sessions_[session_id] = ..`: an open session of the same id is destroyed. -/
def InspectorIoDelegate.startSession (d : InspectorIoDelegate) (sessionId : Int) (session : Session) : InspectorIoDelegate :=
  { d with sessions := d.sessions.insert sessionId session }

def InspectorIoDelegate.messageReceived (d : InspectorIoDelegate) (sessionId : Int) (message : String) : InspectorIoDelegate :=
  match d.sessions[sessionId]? with
  | some session => { d with sessions := d.sessions.insert sessionId { session with dispatched := session.dispatched ++ [message] } }
  | none => d

def InspectorIoDelegate.endSession (d : InspectorIoDelegate) (sessionId : Int) : InspectorIoDelegate :=
  { d with sessions := d.sessions.erase sessionId }

structure NoslatedDiagChannel where
  stopping : Bool := false
  openedSessionCount : UInt32 := 0
  delegate : Option InspectorIoDelegate := none
  /-- `next_session_id_` of the main thread's handle, which outlives the delegates. -/
  nextSessionId : Nat := 0

structure Reply where
  code : CanonicalCode
  error : Option String := none
  deriving DecidableEq

def Reply.ok : Reply := { code := .ok }
def Reply.clientError (message : String) : Reply := { code := .clientError, error := some message }

namespace NoslatedDiagChannel

def inspectorStartSession (c : NoslatedDiagChannel) (sessionId : Int) : NoslatedDiagChannel × Reply :=
  if c.stopping then (c, .clientError "Inspector channel closing.")
  else match c.delegate with
    | none => (c, .clientError "Inspector channel not started.")
    | some d =>
      ({ c with
          delegate := some (d.startSession sessionId { id := c.nextSessionId + 1 })
          nextSessionId := c.nextSessionId + 1
          openedSessionCount := c.openedSessionCount + 1 }, .ok)

def inspectorEndSession (c : NoslatedDiagChannel) (sessionId : Int) : NoslatedDiagChannel × Reply :=
  match c.delegate with
  | none => (c, .clientError "Inspector channel not started.")
  | some d =>
    if 0 < c.openedSessionCount then
      ({ c with delegate := some (d.endSession sessionId), openedSessionCount := c.openedSessionCount - 1 }, .ok)
    else (c, .ok)

def inspectorCommand (c : NoslatedDiagChannel) (sessionId : Int) (message : String) : NoslatedDiagChannel × Reply :=
  match c.delegate with
  | none => (c, .clientError "Inspector channel not started.")
  | some d => ({ c with delegate := some (d.messageReceived sessionId message) }, .ok)

/-- The requests of the agent, and what the inspector's own thread asks of the channel. -/
inductive Call where
  | startSession (sessionId : Int)
  | endSession (sessionId : Int)
  | command (sessionId : Int) (message : String)
  | assignInspectorDelegate
  | terminateConnections
  | stopAcceptingNewConnections

def call (c : NoslatedDiagChannel) : Call → NoslatedDiagChannel
  | .startSession s => (c.inspectorStartSession s).1
  | .endSession s => (c.inspectorEndSession s).1
  | .command s message => (c.inspectorCommand s message).1
  | .assignInspectorDelegate => { c with delegate := some {} }
  | .terminateConnections => { c with delegate := none }
  | .stopAcceptingNewConnections => { c with stopping := true }

def after (calls : List Call) : NoslatedDiagChannel := calls.foldl call {}

def session? (c : NoslatedDiagChannel) (sessionId : Int) : Option Session := c.delegate.bind (·.sessions[sessionId]?)

/-! ## What one end does -/

/-- Answered `OK`, an end has ended its session; it never touches another one. -/
structure EndsSession (c : NoslatedDiagChannel) (s : Int) : Prop where
  gone : (c.inspectorEndSession s).2 = .ok → (c.inspectorEndSession s).1.session? s = none
  others : ∀ t, t ≠ s → (c.inspectorEndSession s).1.session? t = c.session? t

theorem inspectorEndSession_cases (c : NoslatedDiagChannel) (s : Int) :
    (c.delegate = none ∧ c.inspectorEndSession s = (c, .clientError "Inspector channel not started.")) ∨
    (∃ d, c.delegate = some d ∧ 0 < c.openedSessionCount ∧ c.inspectorEndSession s =
      ({ c with delegate := some (d.endSession s), openedSessionCount := c.openedSessionCount - 1 }, .ok)) ∨
    (∃ d, c.delegate = some d ∧ c.openedSessionCount = 0 ∧ c.inspectorEndSession s = (c, .ok)) := by
  unfold inspectorEndSession
  cases c.delegate with
  | none => exact .inl ⟨rfl, rfl⟩
  | some d =>
    by_cases h : 0 < c.openedSessionCount
    · exact .inr (.inl ⟨d, rfl, h, by simp only [if_pos h]⟩)
    · refine .inr (.inr ⟨d, rfl, ?_, by simp only [if_neg h]⟩)
      have hz : ¬0 < c.openedSessionCount.toNat := by simpa [UInt32.lt_iff_toNat_lt] using h
      exact UInt32.toNat_inj.mp (by simpa using hz)

theorem endSession_get (d : InspectorIoDelegate) (s t : Int) :
    (d.endSession s).sessions[t]? = if s = t then none else d.sessions[t]? := Lib.erase_get d.sessions s t

theorem endsSession_step (c : NoslatedDiagChannel) (s : Int) :
    c.EndsSession s ↔ c.openedSessionCount ≠ 0 ∨ c.session? s = none := by
  rcases inspectorEndSession_cases c s with ⟨hd, he⟩ | ⟨d, hd, hpos, he⟩ | ⟨d, hd, hzero, he⟩
  · refine ⟨fun _ => .inr (by simp [session?, hd]), fun _ => ⟨?_, ?_⟩⟩
    · intro hok
      simp [he, Reply.ok, Reply.clientError] at hok
    · intro t _
      rw [he]
  · refine ⟨fun _ => .inl ?_, fun _ => ⟨?_, ?_⟩⟩
    · intro hz
      simp [hz] at hpos
    · intro _
      simp [he, session?, endSession_get]
    · intro t ht
      simp [he, session?, endSession_get, hd, Ne.symm ht]
  · constructor
    · intro h
      have hgone := h.gone (by rw [he])
      rw [he] at hgone
      exact .inr hgone
    · rintro (hne | hnone)
      · exact absurd hzero hne
      · refine ⟨fun _ => ?_, fun t _ => ?_⟩
        · rw [he]
          exact hnone
        · rw [he]

/-- Over every history of calls: each end that is answered `OK` has ended its session and
    no end touches another session, exactly if no end comes while the count is zero and
    its session is open. -/
theorem endsSession_iff (calls : List Call) :
    (∀ pre s, pre ++ [.endSession s] <+: calls → (after pre).EndsSession s) ↔
      ∀ pre s, pre ++ [.endSession s] <+: calls → (after pre).openedSessionCount ≠ 0 ∨ (after pre).session? s = none := by
  constructor
  · intro h pre s hp
    exact (endsSession_step _ s).mp (h pre s hp)
  · intro h pre s hp
    exact (endsSession_step _ s).mpr (h pre s hp)

/-- Session 1 is opened; an end for 99, which nobody opened, takes the count to zero; the
    end for 1 is answered `OK` and leaves session 1 where it is. -/
theorem unknown_end_strands :
    ((after [.assignInspectorDelegate, .startSession 1, .endSession 99]).inspectorEndSession 1).2 = .ok ∧
      ((after [.assignInspectorDelegate, .startSession 1, .endSession 99]).inspectorEndSession 1).1.session? 1 = some { id := 1 } := by
  decide

/-! ## A polite agent -/

/-- The count covers the open sessions. -/
def InStep (c : NoslatedDiagChannel) : Prop := ∀ d, c.delegate = some d → d.sessions.size ≤ c.openedSessionCount.toNat

/-- The agent ends only sessions that are open, and starts fewer than 2^32. -/
def Polite (c : NoslatedDiagChannel) : Call → Prop
  | .startSession _ => c.openedSessionCount.toNat + 1 < 2 ^ 32
  | .endSession s => (c.session? s).isSome
  | _ => True

theorem size_messageReceived (d : InspectorIoDelegate) (s : Int) (message : String) :
    (d.messageReceived s message).sessions.size = d.sessions.size := by
  unfold InspectorIoDelegate.messageReceived
  cases h : d.sessions[s]? with
  | none => rfl
  | some session =>
    have hmem : s ∈ d.sessions := Lib.mem_of_get h
    exact TreeMap.size_insert.trans (if_pos (TreeMap.contains_iff_mem.mpr hmem))

theorem InStep.call {c : NoslatedDiagChannel} (h : c.InStep) {k : Call} (hk : c.Polite k) : (c.call k).InStep := by
  cases k with
  | startSession s =>
    intro d' hd'
    simp only [NoslatedDiagChannel.call, inspectorStartSession] at hd' ⊢
    by_cases hs : c.stopping = true
    · rw [if_pos hs] at hd' ⊢
      exact h d' hd'
    · rw [if_neg hs] at hd' ⊢
      cases hd : c.delegate with
      | none =>
        rw [hd] at hd'
        exact absurd (hd.symm.trans hd') (by simp)
      | some d =>
        rw [hd] at hd'
        obtain rfl : d.startSession s { id := c.nextSessionId + 1 } = d' := Option.some.inj hd'
        have hle : (d.sessions.insert s { id := c.nextSessionId + 1 }).size ≤ d.sessions.size + 1 := TreeMap.size_insert_le
        have hc := h d hd
        have hadd : (c.openedSessionCount + 1).toNat = c.openedSessionCount.toNat + 1 := by
          rw [UInt32.toNat_add]
          exact Nat.mod_eq_of_lt hk
        show (d.sessions.insert s _).size ≤ (c.openedSessionCount + 1).toNat
        omega
  | endSession s =>
    intro d' hd'
    rcases inspectorEndSession_cases c s with ⟨hd, he⟩ | ⟨d, hd, hpos, he⟩ | ⟨d, hd, -, he⟩
    · rw [NoslatedDiagChannel.call, he] at hd'
      exact absurd (hd.symm.trans hd') (by simp)
    · rw [NoslatedDiagChannel.call, he] at hd' ⊢
      obtain rfl : d.endSession s = d' := Option.some.inj hd'
      obtain ⟨session, hopen⟩ := Option.isSome_iff_exists.mp hk
      have hget : d.sessions[s]? = some session := by simpa [session?, hd] using hopen
      have hsize := Lib.size_erase_add_one (Lib.mem_of_get hget)
      have hc := h d hd
      have hsub : (c.openedSessionCount - 1).toNat = c.openedSessionCount.toNat - 1 :=
        UInt32.toNat_sub_of_le _ _ (by rw [UInt32.le_iff_toNat_le]; rw [UInt32.lt_iff_toNat_lt] at hpos; exact hpos)
      show (d.sessions.erase s).size ≤ (c.openedSessionCount - 1).toNat
      omega
    · rw [NoslatedDiagChannel.call, he] at hd' ⊢
      exact h d' hd'
  | command s message =>
    intro d' hd'
    simp only [NoslatedDiagChannel.call, inspectorCommand] at hd' ⊢
    cases hd : c.delegate with
    | none =>
      rw [hd] at hd'
      exact absurd (hd.symm.trans hd') (by simp)
    | some d =>
      rw [hd] at hd'
      obtain rfl : d.messageReceived s message = d' := Option.some.inj hd'
      rw [size_messageReceived]
      exact h d hd
  | assignInspectorDelegate =>
    intro d' hd'
    obtain rfl : {} = d' := Option.some.inj hd'
    exact Nat.zero_le _
  | terminateConnections =>
    intro d' hd'
    cases hd'
  | stopAcceptingNewConnections => exact h

theorem after_snoc (calls : List Call) (k : Call) : after (calls ++ [k]) = (after calls).call k := foldl_concat _ _ _ _

theorem inStep_run (calls : List Call) (hp : ∀ pre k, pre ++ [k] <+: calls → (after pre).Polite k) : (after calls).InStep := by
  induction calls using List.reverseRecOn with
  | nil =>
    intro d hd
    cases hd
  | append_singleton calls k ih =>
    rw [after_snoc]
    refine (ih ?_).call (hp calls k prefix_rfl)
    intro pre k' hpre
    exact hp pre k' (hpre.trans (prefix_append _ _))

/-- A polite agent's ends do what they say. -/
theorem endsSession_of_polite (calls : List Call) (hp : ∀ pre k, pre ++ [k] <+: calls → (after pre).Polite k) (pre : List Call) (s : Int)
    (hpre : pre ++ [.endSession s] <+: calls) : (after pre).EndsSession s := by
  have hin : (after pre).InStep := by
    refine inStep_run pre fun pre' k hpre' => hp pre' k (hpre'.trans ?_)
    exact (prefix_append _ _).trans hpre
  rw [endsSession_step]
  refine or_iff_not_imp_left.mpr fun hzero => ?_
  -- a count of zero leaves room for no session
  cases hd : (after pre).delegate with
  | none => simp [session?, hd]
  | some d =>
    have hsize := hin d hd
    rw [not_not.mp hzero] at hsize
    have hempty : d.sessions.isEmpty = true := by
      rw [TreeMap.isEmpty_eq_size_eq_zero]
      simpa using hsize
    simp [session?, hd, TreeMap.getElem?_of_isEmpty hempty]

theorem endsSession_of_polite_one : (after [.assignInspectorDelegate, .startSession 1]).EndsSession 1 := by
  refine endsSession_of_polite [.assignInspectorDelegate, .startSession 1, .endSession 1] (fun pre k h => ?_) _ 1 prefix_rfl
  obtain ⟨rest, h⟩ := h
  rcases pre with _ | ⟨a, _ | ⟨b, _ | ⟨c, _ | ⟨d, pre⟩⟩⟩⟩ <;> cases h
  · trivial
  · exact (by decide : (0 : UInt32).toNat + 1 < 2 ^ 32)
  · rfl

end NoslatedDiagChannel

end Aworker.Inspector
