/-
  Aworker.Ipc.SocketServer — the sessions of an agent server (src/ipc/ipc_socket_server.cc:
  `NoslatedSocketServer`, `ServerDelegate`).

  `Accept` gives a connection the next session id and stores its session, which owns its
  socket. The socket's delegate closes the session and tells the service when the socket
  finishes (`ServerDelegate::OnFinished`); an error it only logs. libuv calls a socket back
  as long as some session owns it. Connections are numbered here: session ids are 32 bits
  wide and come round.

  Proved, over every run of the server with any number of connections:
  `serverStep_inv`, `torn_down_iff`, `connections_isolated`.
-/

import Aworker.Lib.Map
import Aworker.Lib.Run
import Aworker.Ipc.Socket

namespace Aworker.Ipc

open List Option

open Std (TreeMap)
open Aworker.Lib (run run_cons run_history insert_get erase_get mem_of_get get_of_mem)
open Aworker.Lib.Framing (RxEv seen late)

variable (P : Protobuf)

abbrev SessionId := UInt32

/-- An accepted connection: its delegate's session id, its socket and what the socket did. -/
structure Connection where
  sid : SessionId
  rx : Rx P

structure Server where
  /-- `connected_sessions_`: the connection whose socket the session owns -/
  connected : TreeMap SessionId Nat := ∅
  nextSessionId : SessionId := 0
  /-- the sockets libuv can still call back -/
  sockets : TreeMap Nat (Connection P) := ∅
  /-- connections accepted so far -/
  accepted : Nat := 0
  /-- `Close` was called: the pipe does not listen any more -/
  closing : Bool := false
  /-- `service_->Disconnected(session_id)`, with the connection whose delegate made the call -/
  disconnected : List (Nat × SessionId) := []

/-- Storing a session under an id that is taken destroys the one there, and its socket. -/
def storeSession (s : Server P) (sid : SessionId) : Server P :=
  { s with
    sockets := (match s.connected[sid]? with
      | some old => s.sockets.erase old
      | none => s.sockets).insert s.accepted ⟨sid, {}⟩
    connected := s.connected.insert sid s.accepted
    accepted := s.accepted + 1 }

/-- `ok`: whether `UvSocketHolder::Accept` gave a socket. -/
def accept (s : Server P) (ok : Bool) : Server P :=
  let s' := { s with nextSessionId := s.nextSessionId + 1 }
  if ok then storeSession P s' s.nextSessionId else s'

def closeSession (s : Server P) (sid : SessionId) : Server P :=
  match s.connected[sid]? with
  | some c => { s with connected := s.connected.erase sid, sockets := s.sockets.erase c }
  | none => s

def serverOnFinished (s : Server P) (c : Nat) (sid : SessionId) : Server P :=
  { closeSession P s sid with disconnected := s.disconnected ++ [(c, sid)] }

/-- The delegate of connection `c`. What a message asks of the service, and the error the
    delegate logs, leave the sessions alone. -/
def serverDelegate (c : Nat) (sid : SessionId) (s : Server P) : Out P → Server P
  | .dispatch _ => s
  | .onError => s
  | .onFinished => serverOnFinished P s c sid

inductive ServerEv where
  | accept (ok : Bool)
  /-- `OnFrame`, or the immediate it scheduled -/
  | socket (c : Nat) (e : RxEv UInt8)
  | onEoF (c : Nat)
  | close

/-- What socket `c` does to its delegate in one event. -/
def deliver (s : Server P) (c : Nat) (k : Connection P) (socket : SocketHolder P) (out : List (Out P)) : Server P :=
  out.foldl (serverDelegate P c k.sid) { s with sockets := s.sockets.insert c ⟨k.sid, ⟨socket, k.rx.out ++ out⟩⟩ }

def serverStep (s : Server P) : ServerEv → Option (Server P)
  | .accept ok => if s.closing then none else some (accept P s ok)
  | .socket c (.chunk bs) => (s.sockets[c]?).map fun k => deliver P s c k (onFrame P k.rx.socket bs) []
  | .socket c .read =>
    (s.sockets[c]?).map fun k => deliver P s c k (onImmediate P k.rx.socket).1 (onImmediate P k.rx.socket).2
  | .onEoF c => (s.sockets[c]?).map fun k => deliver P s c k (onEoF P k.rx.socket).1 (onEoF P k.rx.socket).2
  | .close => if s.closing then none else some { s with connected := ∅, sockets := ∅, closing := true }

/-- The chunks and reads of connection `c`. -/
def eventsOf (c : Nat) (evs : List ServerEv) : List (RxEv UInt8) :=
  evs.filterMap fun
    | .socket c' e => if c' = c then some e else none
    | _ => none

def unread (evs : List (RxEv UInt8)) : List UInt8 := ((framing P).drain (seen evs)).2 ++ late evs

/-- No session owns the socket of connection `c`, and the service was told once that it
    is gone. -/
def TornDown (s : Server P) (c : Nat) : Prop :=
  (∀ sid : SessionId, s.connected[sid]? ≠ some c) ∧ (s.disconnected.map Prod.fst).count c = 1

/-! ## What an event does -/

theorem dispatch_noFinish (d : Decoder P) : Out.onFinished ∉ (dispatch P d).1 := by
  unfold dispatch
  cases d.header with
  | none => simp
  | some h =>
    dsimp only
    split <;> simp

theorem readLoop_noFinish (n : Nat) (d : Decoder P) : Out.onFinished ∉ (readLoop P n d).2 := by
  induction n generalizing d with
  | zero => simp [readLoop]
  | succ n ih =>
    unfold readLoop readOnce
    rcases decode P d with ⟨_ | _ | _, d'⟩
    · simp
    · simp only [mem_append, not_or]
      exact ⟨dispatch_noFinish P d', ih _⟩
    · simp

theorem onImmediate_noFinish (s : SocketHolder P) : Out.onFinished ∉ (onImmediate P s).2 := by
  unfold onImmediate
  split
  · exact readLoop_noFinish P _ _
  · simp

/-- End of file: an error, or the delegate's `OnFinished` after at most a message. -/
theorem onEoF_out (s : SocketHolder P) :
    (onEoF P s).2 = [.onError] ∨ ∃ out, Out.onFinished ∉ out ∧ (onEoF P s).2 = out ++ [.onFinished] := by
  unfold onEoF
  rcases decode P s.decoder with ⟨_ | _ | _, d⟩
  · exact Or.inl rfl
  · exact Or.inr ⟨_, dispatch_noFinish P d, rfl⟩
  · exact Or.inr ⟨[], by simp, rfl⟩

variable {c : Nat} {out : List (Out P)}

theorem foldl_serverDelegate {sid : SessionId} (h : Out.onFinished ∉ out) (s : Server P) :
    out.foldl (serverDelegate P c sid) s = s := by
  induction out with
  | nil => rfl
  | cons o out ih =>
    simp only [mem_cons, not_or] at h
    cases o with
    | dispatch f => exact ih h.2
    | onError => exact ih h.2
    | onFinished => exact absurd rfl h.1

variable {s : Server P} {k : Connection P}

theorem deliver_keep {socket : SocketHolder P} (h : Out.onFinished ∉ out) :
    deliver P s c k socket out = { s with sockets := s.sockets.insert c ⟨k.sid, ⟨socket, k.rx.out ++ out⟩⟩ } :=
  foldl_serverDelegate P h _

theorem deliver_finish (socket : SocketHolder P) (h : Out.onFinished ∉ out) (hc : s.connected[k.sid]? = some c) :
    ∃ k', deliver P s c k socket (out ++ [.onFinished]) = { s with
      connected := s.connected.erase k.sid
      sockets := (s.sockets.insert c k').erase c
      disconnected := s.disconnected ++ [(c, k.sid)] } := by
  refine ⟨⟨k.sid, ⟨socket, k.rx.out ++ (out ++ [.onFinished])⟩⟩, ?_⟩
  rw [deliver, foldl_append, foldl_serverDelegate P h]
  simp [serverDelegate, serverOnFinished, closeSession, hc]

/-- Every session owns the socket of one live connection, and every live connection's
    socket is its session's. -/
structure Owned (s : Server P) : Prop where
  session : ∀ (c : Nat) (k : Connection P), s.sockets[c]? = some k → s.connected[k.sid]? = some c
  socket : ∀ (sid : SessionId) c, s.connected[sid]? = some c → ∃ k, s.sockets[c]? = some k ∧ k.sid = sid

variable {s' : Server P} {e : ServerEv}

/-- The effect of one event: a connection is accepted (or refused), a socket reads or stays
    after a malformed end of file, a socket finishes, or the server closes. -/
theorem serverStep_cases (ho : Owned P s) (h : serverStep P s e = some s') :
    (∃ ok, e = .accept ok ∧ s' = accept P s ok) ∨
    (∃ (c : Nat) (k : Connection P) (rx : Rx P), s.sockets[c]? = some k ∧ s' = { s with sockets := s.sockets.insert c ⟨k.sid, rx⟩ } ∧
      ((∃ x, e = .socket c x ∧ rx = rxStep P k.rx x) ∨ e = .onEoF c ∧ (onEoF P k.rx.socket).2 = [.onError])) ∨
    (∃ (c : Nat) (k k' : Connection P), e = .onEoF c ∧ s.sockets[c]? = some k ∧ (onEoF P k.rx.socket).2 ≠ [.onError] ∧ s' = { s with
      connected := s.connected.erase k.sid
      sockets := (s.sockets.insert c k').erase c
      disconnected := s.disconnected ++ [(c, k.sid)] }) ∨
    (e = .close ∧ s' = { s with connected := ∅, sockets := ∅, closing := true }) := by
  cases e with
  | accept ok =>
    simp only [serverStep, ite_none_left_eq_some, Option.some.injEq] at h
    exact Or.inl ⟨ok, rfl, h.2.symm⟩
  | socket c x =>
    right; left
    cases x with
    | chunk bs =>
      obtain ⟨k, hk, rfl⟩ := map_eq_some_iff.mp h
      exact ⟨c, k, _, hk, deliver_keep P (by simp), Or.inl ⟨_, rfl, by simp [rxStep]⟩⟩
    | read =>
      obtain ⟨k, hk, rfl⟩ := map_eq_some_iff.mp h
      exact ⟨c, k, _, hk, deliver_keep P (onImmediate_noFinish P _), Or.inl ⟨_, rfl, rfl⟩⟩
  | onEoF c =>
    obtain ⟨k, hk, rfl⟩ := map_eq_some_iff.mp h
    rcases onEoF_out P k.rx.socket with herr | ⟨out, hout, hfin⟩
    · exact Or.inr (Or.inl ⟨c, k, _, hk, deliver_keep P (by simp [herr]), Or.inr ⟨rfl, herr⟩⟩)
    · obtain ⟨k', hk'⟩ := deliver_finish P (onEoF P k.rx.socket).1 hout (ho.session c k hk)
      refine Or.inr (Or.inr (Or.inl ⟨c, k, k', rfl, hk, ?_, by rw [hfin]; exact hk'⟩))
      intro he
      rw [hfin, append_eq_singleton_iff] at he
      simp at he
  | close =>
    simp only [serverStep, ite_none_left_eq_some, Option.some.injEq] at h
    exact Or.inr (Or.inr (Or.inr ⟨rfl, h.2.symm⟩))

/-! ## Every run -/

structure ServerInv (s : Server P) (evs : List ServerEv) : Prop extends Owned P s where
  numbered : ∀ (c : Nat) (k : Connection P), s.sockets[c]? = some k → c < s.accepted
  told : ∀ c ∈ s.disconnected.map Prod.fst, c < s.accepted ∧ c ∉ s.sockets
  unused : ∀ c, s.accepted ≤ c → eventsOf c evs = []
  rx : ∀ (c : Nat) (k : Connection P), s.sockets[c]? = some k → ServerEv.onEoF c ∉ evs → k.rx = rxRun P (eventsOf c evs)

theorem eventsOf_concat (c : Nat) (evs : List ServerEv) (e : ServerEv) :
    eventsOf c (evs ++ [e]) = eventsOf c evs ++ eventsOf c [e] := filterMap_append

theorem replaced_get (ho : Owned P s) (sid : SessionId) (c : Nat) (k : Connection P) : (match s.connected[sid]? with
      | some old => s.sockets.erase old
      | none => s.sockets)[c]? = some k ↔ s.sockets[c]? = some k ∧ k.sid ≠ sid := by
  have hsid : ∀ hk : s.sockets[c]? = some k, k.sid = sid → s.connected[sid]? = some c := fun hk he => he ▸ ho.session c k hk
  cases hs : s.connected[sid]? with
  | none =>
    refine ⟨fun hk => ⟨hk, fun he => ?_⟩, fun hk => hk.1⟩
    rw [hsid hk he] at hs
    cases hs
  | some old =>
    obtain ⟨k', hk', hold⟩ := ho.socket sid old hs
    dsimp only
    rw [erase_get]
    by_cases hc : old = c
    · subst hc
      rw [if_pos rfl, hk']
      exact iff_of_false (by nofun) fun h => h.2 (Option.some.inj h.1 ▸ hold)
    · rw [if_neg hc]
      refine ⟨fun hk => ⟨hk, fun he => ?_⟩, fun hk => hk.1⟩
      rw [hsid hk he] at hs
      exact hc (Option.some.inj hs).symm

theorem storeSession_sockets (ho : Owned P s) (sid : SessionId) (c : Nat) (k : Connection P) :
    (storeSession P s sid).sockets[c]? = some k ↔
      (c = s.accepted ∧ k = ⟨sid, {}⟩) ∨ (c ≠ s.accepted ∧ s.sockets[c]? = some k ∧ k.sid ≠ sid) := by
  unfold storeSession
  dsimp only
  rw [insert_get]
  by_cases hc : s.accepted = c
  · rw [if_pos hc]
    constructor
    · intro h
      exact Or.inl ⟨hc.symm, (Option.some.inj h).symm⟩
    · intro h
      rcases h with ⟨-, rfl⟩ | ⟨hne, -⟩
      · rfl
      · exact absurd hc.symm hne
  · rw [if_neg hc, replaced_get P ho]
    constructor
    · intro h
      exact Or.inr ⟨Ne.symm hc, h⟩
    · intro h
      rcases h with ⟨he, -⟩ | ⟨-, h⟩
      · exact absurd he.symm hc
      · exact h

theorem serverInit_inv : ServerInv P {} [] := by
  constructor
  · constructor <;> simp
  · simp
  · simp
  · intro c _; rfl
  · simp

variable {evs : List ServerEv}

theorem accept_inv (hi : ServerInv P s evs) (ok : Bool) : ServerInv P (accept P s ok) (evs ++ [.accept ok]) := by
  have hev : ∀ c, eventsOf c (evs ++ [.accept ok]) = eventsOf c evs := fun c => by
    rw [eventsOf_concat]; exact append_nil _
  have heof : ∀ c, ServerEv.onEoF c ∉ evs ++ [.accept ok] → ServerEv.onEoF c ∉ evs := fun c h h' => h (by simp [h'])
  cases ok with
  | false =>
    refine ⟨⟨hi.session, hi.socket⟩, hi.numbered, hi.told, fun c hc => ?_, fun c k hk h => ?_⟩
    · rw [hev]; exact hi.unused c hc
    · rw [hev]; exact hi.rx c k hk (heof c h)
  | true =>
    have hsock : ∀ c k, (accept P s true).sockets[c]? = some k ↔ (c = s.accepted ∧ k = ⟨s.nextSessionId, {}⟩) ∨
        (c ≠ s.accepted ∧ s.sockets[c]? = some k ∧ k.sid ≠ s.nextSessionId) :=
      storeSession_sockets P (s := { s with nextSessionId := s.nextSessionId + 1 }) ⟨hi.session, hi.socket⟩ s.nextSessionId
    have hconn : (accept P s true).connected = s.connected.insert s.nextSessionId s.accepted := rfl
    have hacc : (accept P s true).accepted = s.accepted + 1 := rfl
    refine ⟨⟨fun c k hk => ?_, fun sid c hc => ?_⟩, fun c k hk => ?_, fun c hc => ?_, fun c hc => ?_, fun c k hk h => ?_⟩
    · rw [hconn, insert_get]
      rcases (hsock c k).mp hk with ⟨rfl, rfl⟩ | ⟨-, hk, hne⟩
      · exact if_pos rfl
      · rw [if_neg (Ne.symm hne)]
        exact hi.session c k hk
    · rw [hconn, insert_get] at hc
      by_cases hs : sid = s.nextSessionId
      · rw [if_pos hs.symm] at hc
        exact ⟨⟨s.nextSessionId, {}⟩, (hsock _ _).mpr (Or.inl ⟨(Option.some.inj hc).symm, rfl⟩), hs.symm⟩
      · rw [if_neg (Ne.symm hs)] at hc
        obtain ⟨k, hk, rfl⟩ := hi.socket sid c hc
        have := hi.numbered c k hk
        exact ⟨k, (hsock c k).mpr (Or.inr ⟨by omega, hk, hs⟩), rfl⟩
    · rw [hacc]
      rcases (hsock c k).mp hk with ⟨rfl, -⟩ | ⟨-, hk, -⟩
      · omega
      · have := hi.numbered c k hk; omega
    · obtain ⟨hlt, hgone⟩ := hi.told c hc
      refine ⟨by omega, fun hmem => ?_⟩
      obtain ⟨k, hk⟩ := get_of_mem hmem
      rcases (hsock c k).mp hk with ⟨rfl, -⟩ | ⟨-, hk, -⟩
      · omega
      · exact hgone (mem_of_get hk)
    · rw [hev]; exact hi.unused c (by omega)
    · rw [hev]
      rcases (hsock c k).mp hk with ⟨rfl, rfl⟩ | ⟨-, hk, -⟩
      · rw [hi.unused _ (Nat.le_refl _)]; rfl
      · exact hi.rx c k hk (heof c h)

theorem keep_get (s : Server P) (c : Nat) (kept : Connection P) {c' : Nat} {k' : Connection P}
    (h : (s.sockets.insert c kept)[c']? = some k') : (c' = c ∧ k' = kept) ∨ (c ≠ c' ∧ s.sockets[c']? = some k') := by
  rw [insert_get] at h
  split at h
  · exact Or.inl ⟨Eq.symm ‹_›, (Option.some.inj h).symm⟩
  · exact Or.inr ⟨‹_›, h⟩

theorem keep_owned (ho : Owned P s) (hk : s.sockets[c]? = some k) (rx : Rx P) :
    Owned P { s with sockets := s.sockets.insert c ⟨k.sid, rx⟩ } := by
  refine ⟨fun c' k' hk' => ?_, fun sid c' hc' => ?_⟩
  · rcases keep_get P s c _ hk' with ⟨rfl, rfl⟩ | ⟨-, hk'⟩
    · exact ho.session c' k hk
    · exact ho.session c' k' hk'
  · obtain ⟨k', hk', hsid⟩ := ho.socket sid c' hc'
    by_cases hc : c = c'
    · subst hc
      rw [hk] at hk'
      obtain rfl := Option.some.inj hk'
      exact ⟨⟨k.sid, rx⟩, by dsimp only; rw [insert_get, if_pos rfl], hsid⟩
    · exact ⟨k', by dsimp only; rw [insert_get, if_neg hc]; exact hk', hsid⟩

theorem keep_inv {rx : Rx P} (hi : ServerInv P s evs) (hk : s.sockets[c]? = some k)
    (he : (∃ x, e = .socket c x ∧ rx = rxStep P k.rx x) ∨ e = .onEoF c ∧ (onEoF P k.rx.socket).2 = [.onError]) :
    ServerInv P { s with sockets := s.sockets.insert c ⟨k.sid, rx⟩ } (evs ++ [e]) := by
  have hev : ∀ c', c ≠ c' → eventsOf c' (evs ++ [e]) = eventsOf c' evs := by
    intro c' hne
    rw [eventsOf_concat]
    rcases he with ⟨x, rfl, -⟩ | ⟨rfl, -⟩ <;> simp [eventsOf, hne]
  refine ⟨keep_owned P hi.toOwned hk rx, fun c' k' hk' => ?_, fun c' hc' => ?_, fun c' hc' => ?_, fun c' k' hk' hno => ?_⟩
  · rcases keep_get P s c _ hk' with ⟨rfl, -⟩ | ⟨-, hk'⟩
    · exact hi.numbered c' k hk
    · exact hi.numbered c' k' hk'
  · obtain ⟨hlt, hgone⟩ := hi.told c' hc'
    refine ⟨hlt, fun hm => ?_⟩
    rcases TreeMap.mem_insert.mp hm with heq | hm
    · obtain rfl := Std.LawfulEqOrd.eq_of_compare heq
      exact hgone (mem_of_get hk)
    · exact hgone hm
  · have hle : s.accepted ≤ c' := hc'
    have hlt := hi.numbered c k hk
    rw [hev c' (by omega)]
    exact hi.unused c' hc'
  · have hno' : ServerEv.onEoF c' ∉ evs := fun h' => hno (mem_append_left _ h')
    rcases keep_get P s c _ hk' with ⟨rfl, rfl⟩ | ⟨hc, hk'⟩
    · rcases he with ⟨x, rfl, hrx⟩ | ⟨rfl, -⟩
      · have hone : eventsOf c' (evs ++ [.socket c' x]) = eventsOf c' evs ++ [x] := by simp [eventsOf]
        rw [hone, rxRun_concat, ← hi.rx c' k hk hno']
        exact hrx
      · exact absurd (mem_append_right _ (mem_singleton.mpr rfl)) hno
    · rw [hev c' hc]
      exact hi.rx c' k' hk' hno'

theorem finish_get (s : Server P) (c : Nat) (last : Connection P) (c' : Nat) (k' : Connection P) :
    ((s.sockets.insert c last).erase c)[c']? = some k' ↔ c ≠ c' ∧ s.sockets[c']? = some k' := by
  rw [erase_get, insert_get]
  by_cases hc : c = c'
  · simp [hc]
  · simp [hc]

theorem finish_owned (ho : Owned P s) (hk : s.sockets[c]? = some k) (last : Connection P) : Owned P { s with
      connected := s.connected.erase k.sid
      sockets := (s.sockets.insert c last).erase c
      disconnected := s.disconnected ++ [(c, k.sid)] } := by
  refine ⟨fun c' k' hk' => ?_, fun sid c' hc' => ?_⟩
  · obtain ⟨hc, hk'⟩ := (finish_get P s c last c' k').mp hk'
    have hs := ho.session c' k' hk'
    show (s.connected.erase k.sid)[k'.sid]? = some c'
    rw [erase_get, if_neg]
    · exact hs
    · intro hsid
      rw [← hsid, ho.session c k hk] at hs
      exact hc (Option.some.inj hs)
  · have hc' : (s.connected.erase k.sid)[sid]? = some c' := hc'
    rw [erase_get] at hc'
    split at hc'
    · cases hc'
    · rename_i hsid
      obtain ⟨k', hk', rfl⟩ := ho.socket sid c' hc'
      refine ⟨k', (finish_get P s c last c' k').mpr ⟨?_, hk'⟩, rfl⟩
      intro hc
      subst hc
      rw [hk] at hk'
      exact hsid (congrArg Connection.sid (Option.some.inj hk'))

theorem finish_inv (k' : Connection P) (hi : ServerInv P s evs) (hk : s.sockets[c]? = some k) : ServerInv P { s with
      connected := s.connected.erase k.sid
      sockets := (s.sockets.insert c k').erase c
      disconnected := s.disconnected ++ [(c, k.sid)] } (evs ++ [.onEoF c]) := by
  have hev : ∀ c', eventsOf c' (evs ++ [.onEoF c]) = eventsOf c' evs := fun c' => by simp [eventsOf]
  refine ⟨finish_owned P hi.toOwned hk k', fun c' k'' hk' => ?_, fun c' hc' => ?_, fun c' hc' => ?_, fun c' k'' hk' hno => ?_⟩
  · exact hi.numbered c' k'' ((finish_get P s c k' c' k'').mp hk').2
  · have hc' : c' ∈ (s.disconnected ++ [(c, k.sid)]).map Prod.fst := hc'
    rw [map_append, mem_append] at hc'
    rcases hc' with hc' | hc'
    · obtain ⟨hlt, hno⟩ := hi.told c' hc'
      refine ⟨hlt, fun hm => ?_⟩
      obtain ⟨k'', hk''⟩ := get_of_mem hm
      exact hno (mem_of_get ((finish_get P s c k' c' k'').mp hk'').2)
    · obtain rfl : c' = c := mem_singleton.mp hc'
      refine ⟨hi.numbered c' k hk, fun hm => ?_⟩
      obtain ⟨k'', hk''⟩ := get_of_mem hm
      exact ((finish_get P s c' k' c' k'').mp hk'').1 rfl
  · rw [hev]; exact hi.unused c' hc'
  · rw [hev]
    exact hi.rx c' k'' ((finish_get P s c k' c' k'').mp hk').2 fun h' => hno (mem_append_left _ h')

theorem serverStep_inv (hi : ServerInv P s evs) (h : serverStep P s e = some s') : ServerInv P s' (evs ++ [e]) := by
  rcases serverStep_cases P hi.toOwned h with ⟨ok, rfl, rfl⟩ | ⟨c, k, rx, hk, rfl, he⟩ | ⟨c, k, k', rfl, hk, -, rfl⟩ | ⟨rfl, rfl⟩
  · exact accept_inv P hi ok
  · exact keep_inv P hi hk he
  · exact finish_inv P k' hi hk
  · have hev : ∀ c', eventsOf c' (evs ++ [.close]) = eventsOf c' evs := fun c' => by simp [eventsOf]
    refine ⟨⟨by simp, by simp⟩, by simp, fun c hc => ⟨(hi.told c hc).1, by simp⟩, fun c hc => ?_, by simp⟩
    rw [hev]; exact hi.unused c hc

variable {t : Server P} {fs : List ServerEv}

theorem serverRun_inv (hi : ServerInv P s evs) (h : run (serverStep P) s fs = some t) : ServerInv P t (evs ++ fs) :=
  run_history (fun _ _ _ _ hi hs => serverStep_inv P hi hs) hi h

/-! ## Tearing a connection down -/

theorem serverStep_disconnected (ho : Owned P s) (h : serverStep P s e = some s')
    (he : e ≠ .onEoF c) : (s'.disconnected.map Prod.fst).count c = (s.disconnected.map Prod.fst).count c := by
  rcases serverStep_cases P ho h with ⟨ok, -, rfl⟩ | ⟨-, -, -, -, rfl, -⟩ | ⟨c', k, k', rfl, -, -, rfl⟩ | ⟨-, rfl⟩
  · cases ok <;> rfl
  · rfl
  · have hne : c' ≠ c := fun e' => he (by rw [e'])
    simp [hne]
  · rfl

theorem serverRun_disconnected (hi : ServerInv P s evs)
    (h : run (serverStep P) s fs = some t) (hc : ServerEv.onEoF c ∉ fs) :
    (t.disconnected.map Prod.fst).count c = (s.disconnected.map Prod.fst).count c := by
  induction fs generalizing s evs with
  | nil => simp at h; subst h; rfl
  | cons e fs ih =>
    simp only [mem_cons, not_or] at hc
    obtain ⟨u, hu, h⟩ := run_cons.mp h
    rw [ih (serverStep_inv P hi hu) h hc.2]
    exact serverStep_disconnected P hi.toOwned hu (Ne.symm hc.1)

theorem unread_buffer (evs : List (RxEv UInt8)) : (rxRun P evs).socket.decoder.buffer = unread P evs := by
  rw [(refines P evs).pending, Lib.Framing.rxRun_eq]
  rfl

theorem onEoF_error_iff (evs : List (RxEv UInt8)) :
    (onEoF P (rxRun P evs).socket).2 = [.onError] ↔ scan P (unread P evs) = .bad := by
  rw [onEoF_spec P (refines P evs).ok, unread_buffer]
  cases scan P (unread P evs) <;> simp

/-- Whatever a connection received before its end of file and whatever the server does
    after it: the connection is torn down exactly if the bytes not read by then do not
    begin with a malformed message. -/
theorem torn_down_iff (pre post : List ServerEv) {s t : Server P} {c : Nat} (hpre : run (serverStep P) {} pre = some s)
    (hc : ServerEv.onEoF c ∉ pre ++ post) (hpost : run (serverStep P) s (.onEoF c :: post) = some t) :
    TornDown P t c ↔ scan P (unread P (eventsOf c pre)) ≠ .bad := by
  simp only [mem_append, not_or] at hc
  have hi : ServerInv P s pre := by simpa using serverRun_inv P (serverInit_inv P) hpre
  obtain ⟨u, hu, hpost⟩ := run_cons.mp hpost
  obtain ⟨_, hlive, -⟩ := map_eq_some_iff.mp hu
  have hzero : (s.disconnected.map Prod.fst).count c = 0 :=
    count_eq_zero.mpr fun hm => (hi.told c hm).2 (mem_of_get hlive)
  have hiu := serverStep_inv P hi hu
  have hit := serverRun_inv P hiu hpost
  have hcount := serverRun_disconnected P hiu hpost hc.2
  rcases serverStep_cases P hi.toOwned hu with ⟨_, he, -⟩ | ⟨c', k, rx, hk, rfl, he⟩ | ⟨c', k, k', he, hk, hfin, rfl⟩ | ⟨he, -⟩
  · cases he
  · -- the delegate logs an error, and nothing else ever happens to the session
    obtain ⟨_, he, -⟩ | ⟨he, herr⟩ := he
    · cases he
    cases he
    rw [hi.rx c k hk hc.1, onEoF_error_iff] at herr
    refine iff_of_false (fun ht => ?_) (not_not.mpr herr)
    have hone : (s.disconnected.map Prod.fst).count c = 1 := hcount.symm.trans ht.2
    omega
  · cases he
    rw [hi.rx c k hk hc.1, ne_eq, onEoF_error_iff] at hfin
    have hone : (t.disconnected.map Prod.fst).count c = 1 := by
      rw [hcount]; simp [hzero]
    refine iff_of_true ⟨fun sid hs => ?_, hone⟩ hfin
    obtain ⟨k'', hk'', -⟩ := hit.socket sid c hs
    have hmem : c ∈ t.disconnected.map Prod.fst := count_pos_iff.mp (by omega)
    exact (hit.told c hmem).2 (mem_of_get hk'')
  · cases he

/-- A message, its read, and end of file inside the next header; another client after it. -/
theorem torn_down_after_part : ∃ t, run (serverStep .plain) {} ([.accept true, .socket 0 (.chunk (twoBytes.take 30)),
    .socket 0 .read] ++ .onEoF 0 :: [.accept true]) = some t ∧ TornDown .plain t 0 := by
  refine ⟨_, rfl, (torn_down_iff .plain [.accept true, .socket 0 (.chunk (twoBytes.take 30)), .socket 0 .read] [.accept true]
    rfl (by simp) rfl).mpr ?_⟩
  rw [← unread_buffer, scan_short .plain (by decide)]
  simp

/-- 25 zero bytes are no header: after end of file, and after the immediate, the session is
    still there and the service was not told. -/
theorem malformed_session_stays : ∃ t, run (serverStep .plain) {} [.accept true, .socket 0 (.chunk (List.replicate 25 0)),
    .onEoF 0, .socket 0 .read] = some t ∧ t.connected[(0 : SessionId)]? = some 0 ∧ t.disconnected = [] ∧ ¬ TornDown .plain t 0 := by
  refine ⟨_, rfl, by decide, rfl, fun h => ?_⟩
  exact h.1 0 (by decide)

/-- Whatever the clients send: sessions and sockets own each other, a connection that the
    service was told about is gone, and one that is open has read what its own events gave. -/
theorem connections_isolated (evs : List ServerEv) {s : Server P} (hr : run (serverStep P) {} evs = some s) :
    Owned P s ∧ (∀ c ∈ s.disconnected.map Prod.fst, c ∉ s.sockets) ∧
      ∀ (c : Nat) (k : Connection P), s.sockets[c]? = some k → .onEoF c ∉ evs → k.rx = rxRun P (eventsOf c evs) := by
  have h : ServerInv P s evs := by simpa using serverRun_inv P (serverInit_inv P) hr
  exact ⟨h.toOwned, fun c hc => (h.told c hc).2, h.rx⟩

def twoClients : List ServerEv := [.accept true, .accept true, .socket 1 (.chunk [7]), .onEoF 0]

theorem connections_isolated_two : ∃ s, run (serverStep .plain) {} twoClients = some s ∧ s.disconnected.map Prod.fst = [0] ∧ 0 ∉ s.sockets :=
  ⟨_, rfl, rfl, (connections_isolated .plain twoClients rfl).2.1 0 (by decide)⟩

end Aworker.Ipc
