/-
  Aworker.AgentChannel.Answers — runs of the trigger handlers.

  - `step_inv`: what holds of every trigger and of the channel's table, in every state.
  Also `reactions_complete`.
  Main results: `answered_once`, `no_stray_push_iff`.
-/

import Mathlib
import Aworker.AgentChannel.Trigger

namespace Aworker.AgentChannel.Trigger

open Aworker.Lib List Option
open Aworker.Fetch (JsNumber Bytes)
open Aworker.Lifetime (Outcome)

variable {P B E : Type}

/-! ## The invariant -/

structure Inv (s : State P B E) : Prop where
  install : s.shared.install.Ok
  activate : s.shared.activate.Ok
  calls : ∀ (n : Nat) c, s.calls[n]? = some c → CallOk s.shared c
  callbacks : ∀ (n : Nat) c, s.calls[n]? = some c → c.stage ≠ .answered → c.id ∈ s.shared.callbacks
  /-- no two requests without an answer have one id -/
  distinct : ∀ (m n : Nat) c d, s.calls[m]? = some c → s.calls[n]? = some d → c.stage ≠ .answered → d.stage ≠ .answered → c.id = d.id → m = n

theorem start_inv : Inv ({} : State P B E) where
  install _ h := nomatch h
  activate _ h := nomatch h
  calls _ _ h := nomatch h
  callbacks _ _ h := nomatch h
  distinct _ _ _ _ h := nomatch h

variable {f f' : Future E}

theorem Future.settle_spec {o : Outcome E} (h : f.Ok) (hs : f.settle o = some f') : f'.Ok ∧ f.Le f' := by
  unfold Future.settle at hs
  split at hs
  · next hnone =>
    obtain rfl := Option.some.inj hs
    refine ⟨fun o' ho => ?_, fun hr => hr, fun _ hf => hf⟩
    cases hnone.symm.trans (h o' ho)
  · cases hs

theorem Future.follow_spec (hs : f.follow = some f') : f'.Ok ∧ f.Le f' := by
  unfold Future.follow at hs
  split at hs
  · next o _ hlife hnone =>
    obtain rfl := Option.some.inj hs
    refine ⟨fun o' ho => ?_, fun hr => hr, fun o' ho => ?_⟩
    · rw [← ho]
      exact hlife
    · rw [hnone] at ho
      cases ho
  · cases hs

/-- What the program and the futures do. -/
structure SharedMoved (sh sh' : Shared P B E) : Prop where
  le : sh.Le sh'
  install : sh'.install.Ok
  activate : sh'.activate.Ok
  callbacks : sh'.callbacks = sh.callbacks

variable {sh sh' : Shared P B E}

theorem onFuture_moved (hi : sh.install.Ok) (ha : sh.activate.Ok) {which : Which} {f : Future E → Option (Future E)}
    (hf : ∀ x x', x.Ok → f x = some x' → x'.Ok ∧ x.Le x') (hs : sh.onFuture which f = some sh') : SharedMoved sh sh' := by
  cases which with
  | install =>
    obtain ⟨x, hx, rfl⟩ := map_eq_some_iff.mp hs
    obtain ⟨hok, hle⟩ := hf _ x hi hx
    exact ⟨⟨hle, .refl _, fun _ _ h => h⟩, hok, ha, rfl⟩
  | activate =>
    obtain ⟨x, hx, rfl⟩ := map_eq_some_iff.mp hs
    obtain ⟨hok, hle⟩ := hf _ x ha hx
    exact ⟨⟨.refl _, hle, fun _ _ h => h⟩, hi, hok, rfl⟩

variable {e : Ev P B E}

section

variable [DecidableEq P] [DecidableEq B]

theorem sharedStep_moved (hi : sh.install.Ok) (ha : sh.activate.Ok)
    (hs : sharedStep sh e = some sh') : SharedMoved sh sh' := by
  cases e with
  | trigger id request => cases hs
  | call n move => cases hs
  | resolveInstall =>
    obtain rfl := Option.some.inj hs
    exact ⟨⟨⟨fun _ => rfl, fun _ h => h⟩, .refl _, fun _ _ h => h⟩, hi, ha, rfl⟩
  | lifetime which o => exact onFuture_moved hi ha (fun _ _ hx hs => Future.settle_spec hx hs) hs
  | follow which => exact onFuture_moved hi ha (fun _ _ _ hs => Future.follow_spec hs) hs
  | settle p v =>
    simp only [sharedStep] at hs
    split at hs
    · next hnone =>
      obtain rfl := Option.some.inj hs
      refine ⟨⟨.refl _, .refl _, fun q w hq => ?_⟩, hi, ha, rfl⟩
      have hne : q ≠ p := by
        rintro rfl
        rw [hnone] at hq
        cases hq
      show Function.update sh.promise p (some v) q = some w
      rw [Function.update_of_ne hne]
      exact hq
    · cases hs
  | lock b =>
    obtain rfl := Option.some.inj hs
    exact ⟨⟨.refl _, .refl _, fun _ _ h => h⟩, hi, ha, rfl⟩
  | unlock b =>
    obtain rfl := Option.some.inj hs
    exact ⟨⟨.refl _, .refl _, fun _ _ h => h⟩, hi, ha, rfl⟩

end

variable {s : State P B E}

theorem Inv.shared (h : Inv s) (hm : SharedMoved s.shared sh) : Inv { s with shared := sh } where
  install := hm.install
  activate := hm.activate
  calls n c hc := (h.calls n c hc).mono hm.le
  callbacks n c hc hopen := by
    rw [hm.callbacks]
    exact h.callbacks n c hc hopen
  distinct := h.distinct

variable {n : Nat} {c : Call P B E} {next : Shared P B E × Call P B E}

theorem Inv.moved (h : Inv s) (hc : s.calls[n]? = some c)
    (hm : Moved s.shared c next) : Inv { shared := next.1, calls := s.calls.set n next.2 } := by
  have hlt : n < s.calls.length := (List.getElem?_eq_some_iff.mp hc).1
  -- the call that moved, or another one
  have hcases : ∀ m d, (s.calls.set n next.2)[m]? = some d → m = n ∧ d = next.2 ∨ m ≠ n ∧ s.calls[m]? = some d := by
    intro m d hd
    rw [getElem?_set] at hd
    split_ifs at hd with hmn
    · exact Or.inl ⟨hmn.symm, (Option.some.inj hd).symm⟩
    · exact Or.inr ⟨fun heq => hmn heq.symm, hd⟩
  refine ⟨hm.install, hm.activate, fun m d hd => ?_, fun m d hd hopen => ?_, fun m k d e hd he hdopen heopen hid => ?_⟩
  · rcases hcases m d hd with ⟨-, rfl⟩ | ⟨-, hd⟩
    · exact hm.ok
    · exact (h.calls m d hd).mono hm.le
  · rcases hcases m d hd with ⟨-, rfl⟩ | ⟨hne, hd⟩
    · rcases hm.callbacks with hsame | ⟨hdone, -⟩
      · rw [hsame, hm.id]
        exact h.callbacks n c hc (hm.stays hopen)
      · exact absurd hdone hopen
    · have hin := h.callbacks m d hd hopen
      rcases hm.callbacks with hsame | ⟨-, hcopen, herase⟩
      · rw [hsame]
        exact hin
      · have hid : d.id ≠ c.id := fun hid => hne (h.distinct m n d c hd hc hopen hcopen hid)
        rw [herase]
        exact (mem_erase_of_ne hid).mpr hin
  · rcases hcases m d hd with ⟨rfl, rfl⟩ | ⟨-, hd'⟩
    · rcases hcases k e he with ⟨rfl, -⟩ | ⟨-, he'⟩
      · rfl
      · exact h.distinct m k c e hc he' (hm.stays hdopen) heopen (hm.id ▸ hid)
    · rcases hcases k e he with ⟨rfl, rfl⟩ | ⟨-, he'⟩
      · exact h.distinct m k d c hd' hc hdopen (hm.stays heopen) (hm.id ▸ hid)
      · exact h.distinct m k d e hd' he' hdopen heopen hid

theorem Inv.snoc (h : Inv s) {callbacks : List RequestId}
    (hc : CallOk { s.shared with callbacks } c) (hnew : c.id ∉ s.shared.callbacks)
    (hcallbacks : callbacks = c.id :: s.shared.callbacks ∨ c.stage = .answered ∧ callbacks = s.shared.callbacks) :
    Inv { shared := { s.shared with callbacks }, calls := s.calls ++ [c] } := by
  have hcases : ∀ (m : Nat) d, (s.calls ++ [c])[m]? = some d → s.calls[m]? = some d ∨ m = s.calls.length ∧ d = c := by
    intro m d hd
    rw [getElem?_append] at hd
    split_ifs at hd with hlt
    · exact Or.inl hd
    · rw [getElem?_singleton] at hd
      split_ifs at hd with hzero
      exact Or.inr ⟨by omega, (Option.some.inj hd).symm⟩
  have hle : s.shared.Le { s.shared with callbacks } := ⟨.refl _, .refl _, fun _ _ h => h⟩
  -- an open request has another id
  have hother : ∀ (m : Nat) d, s.calls[m]? = some d → d.stage ≠ .answered → d.id ≠ c.id := by
    intro m d hd hopen hid
    exact hnew (hid ▸ h.callbacks m d hd hopen)
  refine ⟨h.install, h.activate, fun m d hd => ?_, fun m d hd hopen => ?_, fun m k d e hd he hdopen heopen hid => ?_⟩
  · rcases hcases m d hd with hd | ⟨-, rfl⟩
    · exact (h.calls m d hd).mono hle
    · exact hc
  · rcases hcases m d hd with hd | ⟨-, rfl⟩
    · have hin := h.callbacks m d hd hopen
      rcases hcallbacks with rfl | ⟨-, rfl⟩
      · exact mem_cons_of_mem _ hin
      · exact hin
    · rcases hcallbacks with rfl | ⟨hdone, -⟩
      · exact mem_cons_self
      · exact absurd hdone hopen
  · rcases hcases m d hd with hd' | ⟨rfl, rfl⟩
    · rcases hcases k e he with he' | ⟨rfl, rfl⟩
      · exact h.distinct m k d e hd' he' hdopen heopen hid
      · exact absurd hid (hother m d hd' hdopen)
    · rcases hcases k e he with he' | ⟨rfl, -⟩
      · exact absurd hid.symm (hother k e he' heopen)
      · rfl

theorem trigger_inv (h : Inv s) {id : RequestId} (hnew : id ∉ s.shared.callbacks) (request : Request) :
    Inv (trigger s id request) := by
  unfold trigger
  by_cases hknown : request.method = initMethod ∨ request.method = invokeMethod
  · simp only [if_pos hknown]
    exact h.snoc ⟨fresh_eventOk _, fun _ => ⟨hknown, rfl, rfl⟩, rfl, rfl⟩ hnew (Or.inl rfl)
  · simp only [if_neg hknown, feedback, erase_cons_head, mem_cons_self, if_true]
    refine h.snoc ⟨fresh_eventOk _, fun hno => absurd rfl hno, _, rfl, Or.inr ⟨rfl, Or.inl ?_, rfl⟩⟩ hnew (Or.inr ⟨rfl, rfl⟩)
    exact (some_ne_none _).symm

variable [DecidableEq P] [DecidableEq B] {hasLocation : Bool}

variable {s' : State P B E}

theorem step_inv (h : Inv s) (hs : step hasLocation s e = some s') : Inv s' := by
  have hshared : ∀ e : Ev P B E, (sharedStep s.shared e).map (fun shared => { s with shared }) = some s' → Inv s' := by
    intro e hs
    obtain ⟨sh, hsh, rfl⟩ := map_eq_some_iff.mp hs
    exact h.shared (sharedStep_moved h.install h.activate hsh)
  cases e with
  | trigger id request =>
    obtain ⟨hnew, hs⟩ := ite_none_left_eq_some.mp hs
    obtain rfl := Option.some.inj hs
    exact trigger_inv h hnew request
  | call n move =>
    simp only [step] at hs
    split at hs
    · cases hs
    · next c hc =>
      obtain ⟨next, hnext, rfl⟩ := map_eq_some_iff.mp hs
      exact h.moved hc (callStep_moved h.install h.activate (h.calls n c hc) hasLocation (h.callbacks n c hc) hnext)
  | resolveInstall => exact hshared .resolveInstall hs
  | lifetime which o => exact hshared (.lifetime which o) hs
  | follow which => exact hshared (.follow which) hs
  | settle p v => exact hshared (.settle p v) hs
  | lock b => exact hshared (.lock b) hs
  | unlock b => exact hshared (.unlock b) hs

theorem run_step_inv {es : List (Ev P B E)} (hr : run (step hasLocation) {} es = some s) : Inv s :=
  run_inv (Q := fun _ _ => True) (fun _ _ _ h _ hs => step_inv h hs) start_inv (along_true _ _) hr

/-! ## Reactions come to an end -/

/-- Is it the turn of a promise's reaction? -/
def Move.reaction : Move P E → Bool
  | .respondWith _ => false
  | _ => true

def Ev.reaction : Ev P B E → Bool
  | .call _ move => move.reaction
  | .follow _ => true
  | _ => false

def Quiet (hasLocation : Bool) (s : State P B E) : Prop := ∀ e : Ev P B E, e.reaction = true → step hasLocation s e = none

def Stage.weight : Stage B E → Nat
  | .install => 5
  | .activate | .respond _ => 3
  | .activated | .responded _ | .failed _ => 1
  | .answered => 0

def Call.weight (c : Call P B E) : Nat := c.stage.weight + if c.event.data.respondWithPromise.isNone then 1 else 0

def Future.weight (f : Future E) : Nat := if f.future.isNone then 1 else 0

def State.weight (s : State P B E) : Nat :=
  s.shared.install.weight + s.shared.activate.weight + (s.calls.map Call.weight).sum

omit [DecidableEq P] [DecidableEq B] in
theorem weight_set_lt {calls : List (Call P B E)} {c' : Call P B E} (hc : calls[n]? = some c) (hlt : c'.weight < c.weight) :
    ((calls.set n c').map Call.weight).sum < (calls.map Call.weight).sum := by
  induction calls generalizing n with
  | nil => cases hc
  | cons d calls ih =>
    cases n with
    | zero =>
      obtain rfl := Option.some.inj hc
      simp only [set_cons_zero, map_cons, sum_cons]
      omega
    | succ n =>
      have := ih hc
      simp only [set_cons_succ, map_cons, sum_cons]
      omega

/-- A reaction that ran is one less to come, for its trigger and for all. -/
structure Lighter (sh : Shared P B E) (c : Call P B E) (next : Shared P B E × Call P B E) : Prop where
  call : next.2.weight < c.weight
  install : next.1.install.future = sh.install.future
  activate : next.1.activate.future = sh.activate.future

variable {stage : Stage B E}

section

omit [DecidableEq P] [DecidableEq B]

variable {sh : Shared P B E} {c : Call P B E}

theorem lighter_stage (hs : some (sh, { c with stage }) = some next) (h : stage.weight < c.stage.weight) : Lighter sh c next := by
  obtain rfl := Option.some.inj hs
  exact ⟨Nat.add_lt_add_right h _, rfl, rfl⟩

theorem lighter_feedback {f : Feedback E} {piped : Option (Option Sid × Option B)} (hs : some (feedback sh c f piped) = some next)
    (h : 0 < c.stage.weight) : Lighter sh c next := by
  obtain rfl := Option.some.inj hs
  exact ⟨Nat.add_lt_add_right h _, rfl, rfl⟩

theorem answer_lighter (hs : answer sh c = some next) : Lighter sh c next := by
  unfold answer at hs
  split at hs
  · next hstage => exact lighter_feedback hs (by simp [hstage, Stage.weight])
  · next hstage => exact lighter_feedback hs (by simp [hstage, Stage.weight])
  · next hstage => exact lighter_feedback hs (by simp [hstage, Stage.weight])
  · next hstage => exact lighter_feedback hs (by simp [hstage, Stage.weight])
  · cases hs

theorem dispatched_lt (hstage : c.stage = .install) (hlt : stage.weight ≤ 3) (event : FetchEvent P B E)
    (dispatch : Option (Except (Failure E) Unit)) : Call.weight { c with stage, event, dispatch } < c.weight := by
  have hinstall : c.stage.weight = 5 := by rw [hstage]; rfl
  have hle : (if event.data.respondWithPromise.isNone then 1 else 0) ≤ 1 := by split <;> omega
  simp only [Call.weight]
  omega

end

omit [DecidableEq P] in
theorem init_lighter {listeners : List (Option E)}
    (hs : callStep hasLocation sh c (.init listeners) = some next) : Lighter sh c next := by
  simp only [callStep] at hs
  split at hs
  · next hstage _ =>
    obtain ⟨-, hs⟩ := ite_none_right_eq_some.mp hs
    split at hs
    · obtain rfl := Option.some.inj hs
      exact ⟨dispatched_lt hstage (by simp [Stage.weight]) _ _, rfl, rfl⟩
    · obtain rfl := Option.some.inj hs
      exact ⟨dispatched_lt hstage (by simp [Stage.weight]) _ _, rfl, rfl⟩
  · cases hs

omit [DecidableEq P] in
theorem invoke_lighter {created : Option (Failure E)} {listeners : List (List (Act P E))}
    (hs : callStep hasLocation sh c (.invoke created listeners) = some next) : Lighter sh c next := by
  simp only [callStep] at hs
  split at hs
  · next hstage _ =>
    obtain ⟨-, hs⟩ := ite_none_right_eq_some.mp hs
    cases created with
    | some e => exact lighter_stage hs (by simp [hstage, Stage.weight])
    | none =>
      simp only at hs
      split at hs
      · obtain rfl := Option.some.inj hs
        exact ⟨dispatched_lt hstage (by simp [Stage.weight]) _ _, rfl, rfl⟩
      · obtain rfl := Option.some.inj hs
        exact ⟨dispatched_lt hstage (by simp [Stage.weight]) _ _, rfl, rfl⟩
  · cases hs

omit [DecidableEq P] in
theorem callStep_lighter {move : Move P E} (hmove : move.reaction = true)
    (hs : callStep hasLocation sh c move = some next) : Lighter sh c next := by
  cases move with
  | installFailed =>
    simp only [callStep] at hs
    split at hs
    · next hstage _ => exact lighter_stage hs (by simp [hstage, Stage.weight])
    · cases hs
  | init listeners => exact init_lighter hs
  | invoke created listeners => exact invoke_lighter hs
  | activateSettled =>
    simp only [callStep] at hs
    split at hs
    · next hstage _ => exact lighter_stage hs (by simp [hstage, Stage.weight])
    · next hstage _ => exact lighter_stage hs (by simp [hstage, Stage.weight])
    · cases hs
  | reply =>
    simp only [callStep] at hs
    split at hs
    · next v hnone _ =>
      obtain rfl := Option.some.inj hs
      obtain ⟨locked, o, hsh, ho⟩ := reply_shared hasLocation sh c.event.data v
      refine ⟨?_, by rw [hsh], by rw [hsh]⟩
      simp [Call.weight, hnone, ho]
    · cases hs
  | respondSettled =>
    simp only [callStep] at hs
    split at hs
    · next hstage => exact lighter_stage hs (by simp [hstage, Stage.weight])
    · next hstage _ => exact lighter_stage hs (by simp [hstage, Stage.weight])
    · next hstage _ => exact lighter_stage hs (by simp [hstage, Stage.weight])
    · cases hs
  | answer => exact answer_lighter hs
  | respondWith ret => cases hmove

omit [DecidableEq P] [DecidableEq B] in
theorem follow_weight (hs : f.follow = some f') : f'.weight < f.weight := by
  unfold Future.follow at hs
  split at hs
  · next hnone =>
    obtain rfl := Option.some.inj hs
    simp [Future.weight, hnone]
  · cases hs

theorem step_weight (he : e.reaction = true) (hs : step hasLocation s e = some s') : s'.weight < s.weight := by
  cases e with
  | call n move =>
    simp only [step] at hs
    split at hs
    · cases hs
    · next c hc =>
      obtain ⟨next, hnext, rfl⟩ := map_eq_some_iff.mp hs
      have h := callStep_lighter he hnext
      have hsum := weight_set_lt hc h.call
      simp only [State.weight, Future.weight, h.install, h.activate]
      omega
  | follow which =>
    obtain ⟨sh, hsh, rfl⟩ := map_eq_some_iff.mp hs
    cases which with
    | install =>
      obtain ⟨f, hf, rfl⟩ := map_eq_some_iff.mp hsh
      have := follow_weight hf
      simp only [State.weight]
      omega
    | activate =>
      obtain ⟨f, hf, rfl⟩ := map_eq_some_iff.mp hsh
      have := follow_weight hf
      simp only [State.weight]
      omega
  | trigger id request => cases he
  | resolveInstall => cases he
  | lifetime which o => cases he
  | settle p v => cases he
  | lock b => cases he
  | unlock b => cases he

/-- However the reactions are ordered, they run out. -/
theorem reactions_complete (s : State P B E) :
    Completes (step hasLocation) (fun _ e => Ev.reaction e = true) s (Quiet hasLocation) := by
  refine completes_of_measure (I := fun _ => True) (m := State.weight) (fun _ _ _ _ _ _ => trivial)
    (fun _ _ _ _ he hs => step_weight he hs) (fun t _ => ?_) trivial
  by_cases hquiet : Quiet hasLocation t
  · exact Or.inl hquiet
  · obtain ⟨e, hne⟩ := not_forall.mp hquiet
    obtain ⟨he, hne⟩ := Classical.not_imp.mp hne
    obtain ⟨u, hu⟩ := ne_none_iff_exists'.mp hne
    exact Or.inr ⟨e, u, he, hu⟩

/-! ## Answers -/

/-- The promises the trigger waits for were settled. -/
structure Settled (sh : Shared P B E) (c : Call P B E) : Prop where
  install : c.request.method = initMethod ∨ c.request.method = invokeMethod → sh.install.future ≠ none
  activate : c.request.method = initMethod → c.dispatch = some (.ok ()) → sh.activate.lifetime ≠ none
  respondWith : c.request.method = invokeMethod → c.dispatch = some (.ok ()) →
    ∀ ret, c.event.data.ret = some ret → sh.promise ret ≠ none

theorem answered_of_quiet (h : Inv s) (hquiet : Quiet hasLocation s)
    (hc : s.calls[n]? = some c) (hset : Settled s.shared c) : c.stage = .answered := by
  have hok := h.calls n c hc
  have hfits := hok.fits
  have hmove : ∀ move : Move P E, move.reaction = true → callStep hasLocation s.shared c move = none := by
    intro move hr
    have hnone := hquiet (.call n move) hr
    simpa only [step, hc, map_eq_none_iff] using hnone
  cases hs : c.stage with
  | answered => rfl
  | install =>
    obtain ⟨hknown, -, -⟩ := hok.unanswered (by simp [hs])
    obtain ⟨o, ho⟩ := ne_none_iff_exists'.mp (hset.install hknown)
    cases o with
    | rejected e => simpa [callStep, hs, ho] using hmove .installFailed rfl
    | fulfilled =>
      rcases hknown with hm | hm
      · simpa [callStep, hs, ho, hm, doDispatchEvent] using hmove (.init []) rfl
      · simpa [callStep, hs, ho, hm, doDispatchEvent] using hmove (.invoke none []) rfl
  | activate =>
    rw [hs] at hfits
    obtain ⟨hm, hd, -, hresolved⟩ := hfits
    obtain ⟨o, ho⟩ := ne_none_iff_exists'.mp (hset.activate hm hd)
    cases hf : s.shared.activate.future with
    | none =>
      have hnone := hquiet (.follow .activate) rfl
      simp [step, sharedStep, Shared.onFuture, Future.follow, hresolved, ho, hf] at hnone
    | some o' =>
      have hnone := hmove .activateSettled rfl
      cases o' with
      | fulfilled => simp [callStep, hs, hf] at hnone
      | rejected e => simp [callStep, hs, hf] at hnone
  | respond waits =>
    rw [hs] at hfits
    obtain ⟨hm, hd, -, hwaits⟩ := hfits
    have hnone := hmove .respondSettled rfl
    cases waits with
    | false => simp [callStep, hs] at hnone
    | true =>
      obtain ⟨ret, hret⟩ := isSome_iff_exists.mp hwaits.symm
      obtain ⟨v, hv⟩ := ne_none_iff_exists'.mp (hset.respondWith hm hd ret hret)
      cases hp : c.event.data.respondWithPromise with
      | none =>
        have hreply := hmove .reply rfl
        simp [callStep, hp, hret, hv] at hreply
      | some o =>
        cases o with
        | fulfilled => simp [callStep, hs, hp] at hnone
        | rejected e => simp [callStep, hs, hp] at hnone
  | activated => simpa [callStep, answer, hs] using hmove .answer rfl
  | responded p =>
    have hnone := hmove .answer rfl
    cases p with
    | none => simp [callStep, answer, hs] at hnone
    | some r => simp [callStep, answer, hs] at hnone
  | failed e => simpa [callStep, answer, hs] using hmove .answer rfl

theorem quiet_single (hcalls : s.calls = [c])
    (hmove : ∀ move : Move P E, move.reaction = true → callStep hasLocation s.shared c move = none)
    (hi : s.shared.install.follow = none) (ha : s.shared.activate.follow = none) : Quiet hasLocation s := by
  intro e he
  cases e with
  | call n move =>
    simp only [step, hcalls]
    cases n with
    | zero => simp [hmove move he]
    | succ n => simp
  | follow which =>
    cases which with
    | install => simp [step, sharedStep, Shared.onFuture, hi]
    | activate => simp [step, sharedStep, Shared.onFuture, ha]
  | trigger id request => cases he
  | resolveInstall => cases he
  | lifetime which o => cases he
  | settle p v => cases he
  | lock b => cases he
  | unlock b => cases he

/-- Every run of the handlers, and every trigger of it. -/
theorem answered_once {es : List (Ev P B E)} {s : State P B E} (hr : run (step hasLocation) {} es = some s) {n : Nat} {c : Call P B E}
    (hc : s.calls[n]? = some c) :
    c.feedbacks.length ≤ 1 ∧ Completes (step hasLocation) (fun _ e => Ev.reaction e = true) s (Quiet hasLocation) ∧
      (Settled s.shared c → Quiet hasLocation s → c.feedbacks.length = 1) ∧
      ∀ f ∈ c.feedbacks, f.code = .ok ∧ Succeeds s.shared c ∨ f.code = .internalError ∧ ¬Succeeds s.shared c := by
  have h := run_step_inv hr
  have hok := h.calls n c hc
  have hfits := hok.fits
  by_cases hs : c.stage = .answered
  · rw [hs] at hfits
    obtain ⟨f, hf, hcode⟩ := hfits
    rw [hf]
    refine ⟨le_rfl, reactions_complete s, fun _ _ => rfl, forall_mem_singleton.mpr ?_⟩
    rcases hcode with ⟨hcode, hacc, -⟩ | ⟨hcode, href, -⟩
    · exact Or.inl ⟨hcode, accepted_succeeds hacc hok.event h.install h.activate⟩
    · exact Or.inr ⟨hcode, refused_not_succeeds href hok.event h.activate⟩
  · obtain ⟨-, hnil, -⟩ := hok.unanswered hs
    refine ⟨by simp [hnil], reactions_complete s, fun hset hquiet => absurd (answered_of_quiet h hquiet hc hset) hs, ?_⟩
    simp [hnil]

def plainResponse (body : Option Nat) : Response Nat := { status := .ofInt 200, headers := Fetch.Headers.empty, body }

/-- A trigger, and a listener that responds with a promise that is settled later. -/
def respondingRun : List (Ev Nat Nat Unit) :=
  [.resolveInstall, .lifetime .install .fulfilled, .trigger 1 { method := invokeMethod }, .follow .install,
    .call 0 (.invoke none [[.respondWith 0 false]]), .settle 0 (.fulfilled (.response (plainResponse (some 0)))), .call 0 .reply,
    .call 0 .respondSettled, .call 0 .answer]

def respondingCall : Call Nat Nat Unit where
  id := 1
  request := { method := invokeMethod }
  stage := .answered
  event := { data :=
    { respondWithEnteredFlag := true
      ret := some 0
      respondWithPromise := some .fulfilled
      potentialResponse := some (plainResponse (some 0)) } }
  dispatch := some (.ok ())
  feedbacks := [.ok (.ofInt 200) []]
  piped := some (none, some 0)

def respondingEnd : State Nat Nat Unit where
  shared :=
    { install := { resolved := true, lifetime := some .fulfilled, future := some .fulfilled }
      promise := Function.update (fun _ => none) 0 (some (.fulfilled (.response (plainResponse (some 0)))))
      locked := fun b => decide (some 0 = some b) || false }
  calls := [respondingCall]

theorem respondingRun_answered :
    run (step false) {} respondingRun = some respondingEnd ∧ Settled respondingEnd.shared respondingCall ∧
      Quiet false respondingEnd ∧ respondingCall.feedbacks.length = 1 := by
  have hrun : run (step false) {} respondingRun = some respondingEnd := rfl
  have hset : Settled respondingEnd.shared respondingCall := by
    refine ⟨fun _ => some_ne_none _, fun hm => absurd hm (by decide), fun _ _ ret hret => ?_⟩
    obtain rfl := Option.some.inj hret
    exact some_ne_none _
  have hquiet : Quiet false respondingEnd := by
    refine quiet_single rfl (fun move hmove => ?_) rfl rfl
    cases move <;> first | rfl | cases hmove
  exact ⟨hrun, hset, hquiet, (answered_once hrun (n := 0) rfl).2.2.1 hset hquiet⟩

/-- The activate event was dispatched, and its lifetime goes on. -/
def activatingCall : Call Nat Nat Unit where
  id := 1
  request := { method := initMethod }
  stage := .activate
  dispatch := some (.ok ())

def activatingEnd : State Nat Nat Unit where
  shared :=
    { install := { resolved := true, lifetime := some .fulfilled, future := some .fulfilled }
      activate := { resolved := true }
      callbacks := [1] }
  calls := [activatingCall]

/-- A listener that throws fails `init` although both lifetimes are fulfilled; and while the
    lifetime of the activate event is pending, `init` has no answer although `installFuture` was
    settled and no reaction is left. -/
theorem lifetimes_do_not_decide :
    (∃ s c, run (step false) ({} : State Nat Nat Unit) [.resolveInstall, .lifetime .install .fulfilled, .follow .install,
        .trigger 1 { method := initMethod }, .call 0 (.init [some ()]), .lifetime .activate .fulfilled, .call 0 .answer] = some s ∧
      s.calls[0]? = some c ∧ s.shared.install.lifetime = some .fulfilled ∧ s.shared.activate.lifetime = some .fulfilled ∧
      c.feedbacks = [.internalError (.program ())]) ∧
    run (step false) {} [.resolveInstall, .lifetime .install .fulfilled, .follow .install, .trigger 1 { method := initMethod },
        .call 0 (.init [])] = some activatingEnd ∧ activatingEnd.shared.install.future = some .fulfilled ∧ Quiet false activatingEnd ∧
      activatingCall.feedbacks = [] := by
  refine ⟨⟨_, _, rfl, rfl, rfl, rfl, rfl⟩, rfl, rfl, ?_, rfl⟩
  refine quiet_single rfl (fun move hmove => ?_) rfl rfl
  cases move <;> first | rfl | cases hmove

/-! ## Pushes without output data -/

section

variable {S R : Type} (encode : S → Bytes) (content : B → Streaming.Source S R)

omit [DecidableEq P] [DecidableEq B]

/-- What a trigger pushes to the agent, when its response's stream has `content`. -/
def Call.pushes (c : Call P B E) : List Streaming.StreamPush :=
  match c.piped with
  | none => []
  | some (sid, body) => (exec (Streaming.pipeStreamsToAgent encode sid (body.map content) false) { agent := true }).2.sent

/-- It was answered with a response without a body. -/
def Bodyless (sh : Shared P B E) (c : Call P B E) : Prop :=
  c.feedbacks ≠ [] ∧ c.request.method = invokeMethod ∧ c.dispatch = some (.ok ()) ∧
    ∃ ret r, c.event.data.ret = some ret ∧ sh.promise ret = some (.fulfilled (.response r)) ∧ Usable r c.event.data.lockedThen ∧ r.body = none

theorem Bodyless.succeeds (h : Bodyless sh c) : Succeeds sh c := by
  obtain ⟨-, hm, hd, ret, r, hret, hv, husable, -⟩ := h
  exact ⟨hd, Or.inr ⟨hm, ret, r, hret, hv, husable⟩⟩

theorem potentialResponse_body (h : EventOk sh c.event.data) {p : Response B}
    (hp : c.event.data.potentialResponse = some p) {ret : P} {r : Response B} (hret : c.event.data.ret = some ret)
    (hv : sh.promise ret = some (.fulfilled (.response r))) : p.body = r.body := by
  have hset : c.event.data.respondWithPromise ≠ none := by
    intro hno
    rw [(h.pending hno).1] at hp
    cases hp
  obtain ⟨ret', v, hret', hv', hrest⟩ := h.settled hset
  obtain rfl : ret = ret' := Option.some.inj (hret.symm.trans hret')
  obtain rfl := Option.some.inj (hv'.symm.trans hv)
  rw [hp] at hrest
  obtain ⟨-, r', heq, -, hbody⟩ := hrest
  cases heq
  exact hbody

end

/-- Every trigger without output data: nothing is pushed, unless it was answered with a response
    that has no body. -/
theorem no_stray_push_iff {es : List (Ev P B E)} {s : State P B E} (hr : run (step hasLocation) {} es = some s) {n : Nat}
    {c : Call P B E} (hc : s.calls[n]? = some c) (hout : c.request.hasOutputData = false) {S R : Type} (encode : S → Bytes)
    (content : B → Streaming.Source S R) : c.pushes encode content = [] ↔ ¬Bodyless s.shared c := by
  have h := run_step_inv hr
  have hok := h.calls n c hc
  have hfits := hok.fits
  by_cases hs : c.stage = .answered
  · rw [hs] at hfits
    obtain ⟨f, hf, ⟨-, ⟨hd, ⟨hm, -⟩ | ⟨hm, hfinal, hpot⟩⟩, hpiped⟩ | ⟨-, href, hpiped⟩⟩ := hfits
    · -- `init` pipes nothing
      have hne : c.request.method ≠ invokeMethod := fun hm' => initMethod_ne_invokeMethod (hm.symm.trans hm')
      rw [Call.pipes, if_neg hne] at hpiped
      exact iff_of_true (by rw [Call.pushes, hpiped]) fun hb => hne hb.2.1
    · obtain ⟨p, hp⟩ := ne_none_iff_exists'.mp hpot
      have hpushes : c.pushes encode content = [] ↔ p.body.isSome = true := by
        rw [Call.pipes, if_pos hm, hp, hout] at hpiped
        rw [Call.pushes, hpiped]
        have hiff := Streaming.pipe_none_iff encode (p.body.map content) false (w := { agent := true }) rfl
        rwa [isSome_map] at hiff
      obtain ⟨-, ⟨hm', -⟩ | ⟨-, ret, r, hret, hv, husable⟩⟩ :=
        accepted_succeeds ⟨hd, Or.inr ⟨hm, hfinal, hpot⟩⟩ hok.event h.install h.activate
      · exact absurd (hm'.symm.trans hm) initMethod_ne_invokeMethod
      have hbody := potentialResponse_body hok.event hp hret hv
      rw [hpushes, hbody]
      constructor
      · rintro hsome ⟨-, -, -, ret', r', hret', hv', -, hnone⟩
        obtain rfl : ret = ret' := Option.some.inj (hret.symm.trans hret')
        cases Option.some.inj (hv.symm.trans hv')
        rw [hnone] at hsome
        cases hsome
      · intro hno
        by_contra hnone
        exact hno ⟨by simp [hf], hm, hd, ret, r, hret, hv, husable, not_isSome_iff_eq_none.mp hnone⟩
    · exact iff_of_true (by rw [Call.pushes, hpiped]) fun hb => refused_not_succeeds href hok.event h.activate hb.succeeds
  · obtain ⟨-, hnil, hpiped⟩ := hok.unanswered hs
    exact iff_of_true (by rw [Call.pushes, hpiped]) fun hb => hb.1 hnil

/-- The body of the response is read, and nothing is pushed. -/
theorem respondingRun_pushes : ∃ c, respondingEnd.calls[0]? = some c ∧ c.piped = some (none, some 0) ∧
    c.pushes (id : Bytes → Bytes) (fun _ => { chunks := [.uint8Array [1]], fin := (.closed : Streaming.End Unit) }) = [] := by
  refine ⟨respondingCall, rfl, rfl, (no_stray_push_iff (n := 0) (rfl : run (step false) {} respondingRun = _) rfl rfl _ _).mpr ?_⟩
  rintro ⟨-, -, -, ret, r, hret, hv, -, hnone⟩
  obtain rfl := Option.some.inj hret
  cases hv
  cases hnone

/-- A response without a body for a trigger without output data ends stream 0, which belongs to
    another trigger that has no answer yet. -/
theorem stream_zero_ended :
    ∃ s c d, run (step false) ({} : State Nat Nat Unit) [.resolveInstall, .lifetime .install .fulfilled, .follow .install,
        .trigger 1 { method := invokeMethod, sid := some 0, hasOutputData := true }, .trigger 2 { method := invokeMethod },
        .settle 0 (.fulfilled (.response (plainResponse none))), .call 1 (.invoke none [[.respondWith 0 false]]), .call 1 .reply,
        .call 1 .respondSettled, .call 1 .answer] = some s ∧
      s.calls = [c, d] ∧ c.request.sid = some 0 ∧ c.feedbacks = [] ∧ d.request.hasOutputData = false ∧
      d.pushes (id : Bytes → Bytes) (fun _ => { chunks := [], fin := (.closed : Streaming.End Unit) }) = [Streaming.endPush 0 false] :=
  ⟨_, _, _, rfl, rfl, rfl, rfl, rfl, rfl⟩

end Aworker.AgentChannel.Trigger
