/-
  Aworker.Cache.SharedFetch — `addAll` of one request by several workers (lib/cache.js:
  `sharedResourceFetch`, `addAll`).

  A call acquires the resource `<method> <url>`, looks the request up in the cache, and
  fetches it only if it is not there; it releases the resource when it has the response, and
  only then, back in `addAll`, puts the response into the cache. Between the release and the
  put another worker can acquire the resource, find nothing, and fetch again.

  Lookups and puts are single steps here: each of them holds the cache's own lock. Every
  fetch that is started records whether the cache held the request then.

  - `put_holds`: after the put of a response without `vary` the cache holds the request.
  Also `fetched_once`, `fetched_twice`.
-/

import Mathlib
import Aworker.Cache.Poison

namespace Aworker.Cache

open Aworker.Lib Aworker.Fetch Function

variable {P : Platform} {ι : Type} [DecidableEq ι] (hash : Text → Text) (r : Request P)

/-! ## The calls -/

inductive AddPhase where
  | waiting
  /-- granted the resource -/
  | holding
  /-- `matchAll` has answered -/
  | looked (found : Bool)
  | fetching
  /-- back in `addAll`, the resource released -/
  | fetched (response : Response) (store : Bytes)
  | done

def AddPhase.inside : AddPhase → Bool
  | .holding => true
  | .looked _ => true
  | .fetching => true
  | _ => false

def AddPhase.toPut : AddPhase → Bool
  | .looked found => !found
  | .fetching => true
  | .fetched _ _ => true
  | _ => false

structure Adders (ι : Type) where
  disk : Disk
  /-- who holds `<method> <url>` -/
  holder : Option ι := none
  phase : ι → AddPhase := fun _ => .waiting
  /-- for each fetch that was started, whether the cache held the request -/
  fetches : List Bool := []

/-- The cache holds an entry that matches `r`. -/
def holds (d : Disk) : Bool :=
  match matchAll (some r) none d with
  | .ok found => found.length != 0
  | .error _ => false

inductive AddEv (ι : Type) where
  | grant (i : ι)
  | look (i : ι)
  /-- the call goes on after its lookup -/
  | goOn (i : ι)
  /-- the network has answered, the body is read, and the resource is released -/
  | answer (i : ι) (response : Response)
  | put (i : ι)

def addStep (s : Adders ι) : AddEv ι → Option (Adders ι)
  | .grant i =>
    match s.phase i, s.holder with
    | .waiting, none => some { s with holder := some i, phase := Function.update s.phase i .holding }
    | _, _ => none
  | .look i =>
    match s.phase i, matchAll (some r) none s.disk with
    | .holding, .ok found => some { s with phase := Function.update s.phase i (.looked (found.length != 0)) }
    | _, _ => none
  | .goOn i =>
    match s.phase i with
    | .looked true => some { s with holder := none, phase := Function.update s.phase i .done }
    | .looked false => some { s with phase := Function.update s.phase i .fetching, fetches := s.fetches ++ [holds r s.disk] }
    | _ => none
  | .answer i response =>
    match s.phase i, sharedResponse response with
    | .fetching, .ok shared => some { s with holder := none, phase := Function.update s.phase i (.fetched shared.1 shared.2) }
    | _, _ => none
  | .put i =>
    match s.phase i with
    | .fetched response store =>
      match batchCacheOperations hash [{ type := .put, request := r, response := some (response, store) }] s.disk with
      | .ok disk => some { s with disk, phase := Function.update s.phase i .done }
      | .error _ => none
    | _ => none

/-- The network answers with an integer status and without `vary`. -/
def CacheableAnswer : AddEv ι → Prop
  | .answer _ response => response.status.isInteger = true ∧ dataHas response.headers.data vary = false
  | _ => True

/-- No call looks while another has a response it has not put. -/
def PutBeforeLook (s : Adders ι) : AddEv ι → Prop
  | .look _ => ∀ j response store, s.phase j ≠ .fetched response store
  | _ => True

/-! ## The cache after a put -/

omit [DecidableEq ι] in
theorem integer_eqInt {x : JsNumber} (hlow : x.ltInt 200 = false) (hhigh : x.gtInt 299 = false) (hi : x.isInteger = true) :
    x.eqInt x.toInt32 = true := by
  have hsame := JsNumber.same_toInt32 hlow hhigh hi
  simp only [JsNumber.Same, JsNumber.ofInt, pow_zero, mul_one] at hsame
  simp [JsNumber.eqInt, hsame]

/-- What can be put of a cacheable answer. -/
structure SharedOk (response : Response) : Prop where
  status : StatusOk response.status.toInt32
  noVary : fieldValues response.headers.data vary = []

variable {response : Response}

theorem sharedOk {shared : Response × Bytes} (h : sharedResponse response = .ok shared)
    (hi : response.status.isInteger = true) (hv : dataHas response.headers.data vary = false) : SharedOk shared.1 := by
  obtain ⟨_, hval, h⟩ := bind_ok.mp h
  obtain ⟨body, -, h⟩ := bind_ok.mp h
  obtain ⟨hlow, hhigh, -⟩ := validateResponse_ok hval
  split at h
  · cases h
  rename_i hnull
  rw [← Except.ok.inj h]
  obtain ⟨-, hlo, hhi⟩ := JsNumber.toInt32_ok hlow hhigh
  have heq := integer_eqInt hlow hhigh hi
  refine ⟨⟨hlo, hhi, ?_, ?_⟩, fieldValues_noVary hv⟩
  all_goals
    intro hn
    rw [hn] at heq
    exact hnull (by simp [nullBodyStatus, heq])

variable {d : Disk}

section

variable (hU : P.url.Reparses)
include hU

theorem holds_last {kept : List (Entry P)} (hr : SharedOk response) (store : Bytes) (hreq : PutRequest r)
    (hsound : Sound P (writeStorage hash (kept ++ [{ request := r, response := response, store := store }]) d)) :
    holds r (writeStorage hash (kept ++ [{ request := r, response := response, store := store }]) d) = true := by
  obtain ⟨storage, hread, hall⟩ := readItems_ok hU hsound
  obtain ⟨init, last, hlast, rfl⟩ := readItems_last hash hread
  obtain ⟨-, -, e, rfl, -, hurl, hfv⟩ := readItem_written hash hU (e := { request := r, response := response, store := store })
    hreq.method hr.status.1 hr.status.2.1 (writeObjects_snoc hash kept _ d.objects) hlast
  have hmatch : matchEntry r none e = .ok true := by
    rw [matchEntry, match_eq hU, hfv, hr.noVary, hurl]
    simp [hreq.method, getOption, varyMatches]
  obtain ⟨l, hl⟩ := queryCache_ok hU r none hall
  have hne := queryCache_found hl (List.mem_append_right init (List.mem_singleton.mpr rfl)) hmatch
  have hmatchAll : matchAll (some r) none (writeStorage hash (kept ++ [{ request := r, response := response, store := store }]) d) =
      .ok (l.map Prod.snd) := by
    apply bind_ok.mpr
    exact ⟨(), validateRequest_ok hU hreq, bind_ok.mpr ⟨_, hread, bind_ok.mpr ⟨l, hl, rfl⟩⟩⟩
  simp [holds, hmatchAll, hne]

theorem put_holds {d' : Disk} (hd : Sound P d) (hr : SharedOk response) (store : Bytes) (hreq : PutRequest r)
    (h : batchCacheOperations hash [{ type := .put, request := r, response := some (response, store) }] d = .ok d') :
    Sound P d' ∧ holds r d' = true := by
  have hsound : Sound P d' := by
    refine sound_batch hash hU hd (fun op hop p store' hp => ?_) h
    rw [List.mem_singleton.mp hop] at hp
    cases hp
    exact ⟨hr.status, by simp [varyLegal, hr.noVary]⟩
  obtain ⟨storage, kept, -, -, -, rfl⟩ := batch_put hash hU h
  exact ⟨hsound, holds_last hash r hU hr store hreq hsound⟩

end

/-! ## Runs -/

inductive Progress (disk : Disk) (phase : ι → AddPhase) : List Bool → Prop
  /-- nothing was fetched, and who has looked in vain did so in this cache -/
  | unstarted : (∀ i, (phase i).toPut = true → phase i = .looked false ∧ holds r disk = false) → Progress disk phase []
  /-- one call has fetched, and no other is on the way to a put -/
  | started (a : ι) : (phase a = .fetching ∨ ∃ response store, phase a = .fetched response store) →
      (∀ i, (phase i).toPut = true → i = a) → Progress disk phase [false]
  | stored : holds r disk = true → (∀ i, (phase i).toPut = false) → Progress disk phase [false]

structure Once (s : Adders ι) : Prop where
  sound : Sound P s.disk
  holder : ∀ i, (s.phase i).inside = true ↔ s.holder = some i
  shared : ∀ i response store, s.phase i = .fetched response store → SharedOk response
  progress : Progress r s.disk s.phase s.fetches

variable {hash r}

variable {s : Adders ι}

theorem addStep_cases {s' : Adders ι} {e : AddEv ι} (h : addStep hash r s e = some s') :
    (∃ i, e = .grant i ∧ s.phase i = .waiting ∧ s.holder = none ∧
      s' = { s with holder := some i, phase := Function.update s.phase i .holding }) ∨
    (∃ i, e = .look i ∧ s.phase i = .holding ∧
      s' = { s with phase := Function.update s.phase i (.looked (holds r s.disk)) }) ∨
    (∃ i, e = .goOn i ∧ s.phase i = .looked true ∧ s' = { s with holder := none, phase := Function.update s.phase i .done }) ∨
    (∃ i, e = .goOn i ∧ s.phase i = .looked false ∧
      s' = { s with phase := Function.update s.phase i .fetching, fetches := s.fetches ++ [holds r s.disk] }) ∨
    (∃ i response shared, e = .answer i response ∧ s.phase i = .fetching ∧ sharedResponse response = .ok shared ∧
      s' = { s with holder := none, phase := Function.update s.phase i (.fetched shared.1 shared.2) }) ∨
    (∃ i response store d, e = .put i ∧ s.phase i = .fetched response store ∧
      batchCacheOperations hash [{ type := .put, request := r, response := some (response, store) }] s.disk = .ok d ∧
      s' = { s with disk := d, phase := Function.update s.phase i .done }) := by
  cases e with
  | grant i =>
    simp only [addStep] at h
    split at h
    · rename_i hp hh
      cases h
      exact Or.inl ⟨i, rfl, hp, hh, rfl⟩
    · cases h
  | look i =>
    simp only [addStep] at h
    split at h
    · rename_i found hp hm
      cases h
      have hholds : holds r s.disk = (found.length != 0) := by simp [holds, hm]
      exact Or.inr (Or.inl ⟨i, rfl, hp, by rw [hholds]⟩)
    · cases h
  | goOn i =>
    simp only [addStep] at h
    split at h
    · rename_i hp
      cases h
      exact Or.inr (Or.inr (Or.inl ⟨i, rfl, hp, rfl⟩))
    · rename_i hp
      cases h
      exact Or.inr (Or.inr (Or.inr (Or.inl ⟨i, rfl, hp, rfl⟩)))
    · cases h
  | answer i response =>
    simp only [addStep] at h
    split at h
    · rename_i shared hp hs
      cases h
      exact Or.inr (Or.inr (Or.inr (Or.inr (Or.inl ⟨i, response, shared, rfl, hp, hs, rfl⟩))))
    · cases h
  | put i =>
    simp only [addStep] at h
    split at h
    · rename_i response store hp
      split at h
      · rename_i d hb
        cases h
        exact Or.inr (Or.inr (Or.inr (Or.inr (Or.inr ⟨i, response, store, d, rfl, hp, hb, rfl⟩))))
      · cases h
    · cases h

variable {phase : ι → AddPhase} {i : ι} {x : AddPhase}

theorem toPut_update {j : ι} (hx : x.toPut = false)
    (h : (Function.update phase i x j).toPut = true) : j ≠ i ∧ (phase j).toPut = true := by
  by_cases hj : j = i
  · subst hj
    rw [update_self, hx] at h
    cases h
  · rw [update_of_ne hj] at h
    exact ⟨hj, h⟩

theorem toPut_update_false (hx : x.toPut = false)
    (h : ∀ j, j ≠ i → (phase j).toPut = false) (j : ι) : (Function.update phase i x j).toPut = false := by
  by_contra hj
  obtain ⟨hne, hj⟩ := toPut_update hx (Bool.not_eq_false _ ▸ hj)
  rw [h j hne] at hj
  cases hj

namespace Progress

variable {disk disk' : Disk} {phase : ι → AddPhase} {fetches : List Bool} {i : ι}

theorem aside (h : Progress r disk phase fetches) (hi : (phase i).toPut = false) (hx : x.toPut = false) :
    Progress r disk (Function.update phase i x) fetches := by
  cases h with
  | unstarted hall =>
    apply unstarted
    intro j hj
    obtain ⟨hne, hj⟩ := toPut_update hx hj
    rw [update_of_ne hne]
    exact hall j hj
  | started a ha hall =>
    have hne : a ≠ i := by
      rintro rfl
      rcases ha with ha | ⟨_, _, ha⟩ <;> rw [ha] at hi <;> cases hi
    apply started a
    · rw [update_of_ne hne]
      exact ha
    · intro j hj
      exact hall j (toPut_update hx hj).2
  | stored hh hall => exact stored hh (toPut_update_false hx fun j _ => hall j)

theorem look (h : Progress r disk phase fetches) (hfetching : ∀ j, phase j ≠ .fetching)
    (hfetched : ∀ j response store, phase j ≠ .fetched response store) :
    Progress r disk (Function.update phase i (.looked (holds r disk))) fetches := by
  cases h with
  | unstarted hall =>
    apply unstarted
    intro j hj
    by_cases hij : j = i
    · subst hij
      rw [update_self] at hj ⊢
      have hnot : holds r disk = false := by simpa [AddPhase.toPut] using hj
      exact ⟨by rw [hnot], hnot⟩
    · rw [update_of_ne hij] at hj ⊢
      exact hall j hj
  | started a ha hall =>
    rcases ha with ha | ⟨response, store, ha⟩
    · exact absurd ha (hfetching a)
    · exact absurd ha (hfetched a response store)
  | stored hh hall =>
    apply stored hh
    rw [hh]
    exact toPut_update_false rfl fun j _ => hall j

theorem start (h : Progress r disk phase fetches) (hi : phase i = .looked false) (halone : ∀ j, phase j = .looked false → j = i) :
    Progress r disk (Function.update phase i .fetching) (fetches ++ [holds r disk]) := by
  have hput : (phase i).toPut = true := by rw [hi]; rfl
  cases h with
  | unstarted hall =>
    rw [(hall i hput).2]
    apply started i
    · exact Or.inl (update_self ..)
    · intro j hj
      by_contra hij
      rw [update_of_ne hij] at hj
      exact hij (halone j (hall j hj).1)
  | started a ha hall =>
    obtain rfl := hall i hput
    rcases ha with ha | ⟨_, _, ha⟩ <;> rw [hi] at ha <;> cases ha
  | stored hh hall =>
    rw [hall i] at hput
    cases hput

theorem answer (h : Progress r disk phase fetches) (hi : phase i = .fetching) (response : Response) (store : Bytes) :
    Progress r disk (Function.update phase i (.fetched response store)) fetches := by
  have hput : (phase i).toPut = true := by rw [hi]; rfl
  cases h with
  | unstarted hall =>
    have := (hall i hput).1
    rw [hi] at this
    cases this
  | started a ha hall =>
    obtain rfl := hall i hput
    apply started i
    · exact Or.inr ⟨response, store, update_self ..⟩
    · intro j hj
      by_contra hij
      rw [update_of_ne hij] at hj
      exact hij (hall j hj)
  | stored hh hall =>
    rw [hall i] at hput
    cases hput

theorem put (h : Progress r disk phase fetches) {store : Bytes} (hi : phase i = .fetched response store)
    (hh : holds r disk' = true) : Progress r disk' (Function.update phase i .done) fetches := by
  have hput : (phase i).toPut = true := by rw [hi]; rfl
  cases h with
  | unstarted hall =>
    have := (hall i hput).1
    rw [hi] at this
    cases this
  | started a ha hall =>
    obtain rfl := hall i hput
    apply stored hh
    apply toPut_update_false rfl
    intro j hne
    by_contra hj
    exact hne (hall j (Bool.not_eq_false _ ▸ hj))
  | stored _ hall =>
    rw [hall i] at hput
    cases hput

end Progress

theorem holder_enter (h : ∀ j, (s.phase j).inside = true ↔ s.holder = some j)
    (hx : x.inside = true) (hfree : ∀ j, s.holder = some j → j = i) (j : ι) :
    (Function.update s.phase i x j).inside = true ↔ some i = some j := by
  by_cases hj : j = i
  · subst hj
    simp [hx]
  · rw [update_of_ne hj, h j]
    simp only [Option.some.injEq, Ne.symm hj, iff_false]
    intro hh
    exact hj (hfree j hh)

theorem holder_leave (h : ∀ j, (s.phase j).inside = true ↔ s.holder = some j)
    (hi : (s.phase i).inside = true) (hx : x.inside = false) (j : ι) :
    (Function.update s.phase i x j).inside = true ↔ (none : Option ι) = some j := by
  by_cases hj : j = i
  · subst hj
    simp [hx]
  · rw [update_of_ne hj, h j, (h i).mp hi]
    simp [Ne.symm hj]

theorem shared_update (h : ∀ j response store, phase j = .fetched response store → SharedOk response)
    (hx : ∀ response store, x = .fetched response store → SharedOk response) (j : ι) (response : Response) (store : Bytes)
    (hj : Function.update phase i x j = .fetched response store) : SharedOk response := by
  by_cases hij : j = i
  · subst hij
    rw [update_self] at hj
    exact hx response store hj
  · rw [update_of_ne hij] at hj
    exact h j response store hj

theorem holder_stay (h : ∀ j, (s.phase j).inside = true ↔ s.holder = some j)
    (hi : (s.phase i).inside = x.inside) (j : ι) : (Function.update s.phase i x j).inside = true ↔ s.holder = some j := by
  by_cases hj : j = i
  · subst hj
    rw [update_self, ← hi]
    exact h j
  · rw [update_of_ne hj]
    exact h j

variable (hash r)

theorem once_step (hU : P.url.Reparses) (hreq : PutRequest r) (s : Adders ι) (e : AddEv ι) (s' : Adders ι) (h : Once r s)
    (hq : CacheableAnswer e ∧ PutBeforeLook s e) (hs : addStep hash r s e = some s') : Once r s' := by
  obtain ⟨hsound, hholder, hshared, hprogress⟩ := h
  -- two calls inside are one
  have hone : ∀ i j, (s.phase i).inside = true → (s.phase j).inside = true → j = i := by
    intro i j hi hj
    exact Option.some.inj (((hholder j).mp hj).symm.trans ((hholder i).mp hi))
  obtain ⟨i, rfl, hp, hfree, rfl⟩ | ⟨i, rfl, hp, rfl⟩ | ⟨i, rfl, hp, rfl⟩ | ⟨i, rfl, hp, rfl⟩ |
    ⟨i, response, shared, rfl, hp, hsh, rfl⟩ | ⟨i, response, store, d, rfl, hp, hb, rfl⟩ := addStep_cases hs
  · refine ⟨hsound, holder_enter hholder rfl (by simp [hfree]), shared_update hshared nofun, ?_⟩
    exact hprogress.aside (by rw [hp]; rfl) rfl
  · refine ⟨hsound, holder_stay hholder (by rw [hp]; rfl), shared_update hshared nofun, ?_⟩
    refine hprogress.look (fun j hj => ?_) hq.2
    obtain rfl := hone i j (by rw [hp]; rfl) (by rw [hj]; rfl)
    rw [hp] at hj
    cases hj
  · refine ⟨hsound, holder_leave hholder (by rw [hp]; rfl) rfl, shared_update hshared nofun, ?_⟩
    exact hprogress.aside (by rw [hp]; rfl) rfl
  · refine ⟨hsound, holder_stay hholder (by rw [hp]; rfl), shared_update hshared nofun, ?_⟩
    refine hprogress.start hp fun j hj => ?_
    exact hone i j (by rw [hp]; rfl) (by rw [hj]; rfl)
  · refine ⟨hsound, holder_leave hholder (by rw [hp]; rfl) rfl, shared_update hshared ?_, hprogress.answer hp _ _⟩
    intro p store hx
    cases hx
    exact sharedOk hsh hq.1.1 hq.1.2
  · obtain ⟨hsound', hholds⟩ := put_holds hash r hU hsound (hshared i response store hp) store hreq hb
    exact ⟨hsound', holder_stay hholder (by rw [hp]; rfl), shared_update hshared nofun, hprogress.put hp hholds⟩

/-- In a run whose workers do not look while another has a response it has not put, the request
    is fetched at most once, and not when the cache holds it. -/
theorem fetched_once (hU : P.url.Reparses) (hreq : PutRequest r) {d : Disk} (hd : Sound P d) {es : List (AddEv ι)} {t : Adders ι}
    (hr : run (addStep hash r) { disk := d } es = some t)
    (ha : Along (addStep hash r) (fun s e => CacheableAnswer e ∧ PutBeforeLook s e) { disk := d } es) :
    t.fetches = [] ∨ t.fetches = [false] := by
  have hstart : Once r ({ disk := d } : Adders ι) := by
    refine ⟨hd, by simp [AddPhase.inside], nofun, ?_⟩
    apply Progress.unstarted
    intro i hi
    cases hi
  have hend := run_inv (once_step hash r hU hreq) hstart ha hr
  cases hp : t.fetches with
  | nil => exact Or.inl rfl
  | cons b l =>
    have hprogress := hend.progress
    rw [hp] at hprogress
    cases hprogress with
    | started => exact Or.inr rfl
    | stored => exact Or.inr rfl

def oneByOne : List (AddEv Bool) :=
  [.grant false, .look false, .goOn false, .answer false (plainResponse 200 [1]), .put false, .grant true, .look true, .goOn true]

theorem fetched_once_two :
    ∃ t, run (addStep id (getRequest "http://a/".toList)) { disk := {} } oneByOne = some t ∧
      (t.fetches = [] ∨ t.fetches = [false]) := by
  refine ⟨_, rfl, ?_⟩
  refine @fetched_once _ _ _ id (getRequest "http://a/".toList) textUrls_reparses ⟨by decide, rfl⟩ {} nofun oneByOne _ rfl ?_
  refine ⟨⟨trivial, trivial⟩, ⟨trivial, fun j _ _ => ?_⟩, ⟨trivial, trivial⟩, ⟨⟨rfl, rfl⟩, trivial⟩, ⟨trivial, trivial⟩,
    ⟨trivial, trivial⟩, ⟨trivial, fun j _ _ => ?_⟩, ⟨trivial, trivial⟩, trivial⟩
  all_goals
    intro hj
    cases j <;> cases hj

/-- The second worker looks after the first one's answer and before its put. -/
theorem fetched_twice :
    ∃ t, run (addStep id (getRequest "http://a/".toList)) { disk := {} }
        [.grant 0, .look 0, .goOn 0, .answer 0 (plainResponse 200 [1]), .grant (1 : Fin 2), .look 1, .goOn 1] = some t ∧
      t.fetches = [false, false] :=
  ⟨_, rfl, rfl⟩

end Aworker.Cache
