import Baseline.Proofs.Subscribing

/-!
# Active trees are those that are listened to

In a service whose steps are heeded, a tree is active exactly when it has one listener, or one that
is on its way, unless a call that has removed it is about to make the tree inactive (`Balanced`).
Every step keeps this (`Aligned.serve`, `Aligned.start`, …), so it holds in every state of a run
(`coherent_runs`), and when no request is in progress nothing is on its way
(`active_iff_listening`).
-/

namespace Baseline

open Await

namespace CommitMgr

/-! ## The invariant -/

namespace Server

/-- Where a call is. -/
def CallOk (regExp : Str → Str → Bool) (w : World) (c : Call) : Prop :=
  match c.request with
  | .track a => Reads a c.proc ∨
    ∃ scan, (scan = some (some 0) ∨ scan = none) ∧ Adds [(a, scan)] c.proc w
  | .untrack a _ => Removes regExp a c.proc ∨ Deactivates regExp a c.proc
  | .newLeaf a _ => c.proc.Within (Touches a)

/-- The number of calls that have yet to add their listener for a contract. -/
def pending (s : Server) (a : Str) : ℕ := s.calls.countP (Call.subscribes a)

/-- `restartSubscriptions` once it has found the active trees. -/
def resume (trees : List TreeDoc) : Js Unit :=
  attempt .restartSubscriptions_provider (fun w =>
    let w := w.get_ws_provider
    (if w.ws_provider.isSome then .ok () else .error .typeError, w)) >>= fun _ =>
      restartTrees trees

theorem serve_resume (trees : List TreeDoc) (w : World) : (resume trees).serve w
    = (if w.Connects then restartTrees trees else .throw .typeError, w.get_ws_provider) := by
  unfold resume attempt
  simp only [Proc.await_bind, Proc.serve]
  by_cases hc : w.Connects
  · rw [if_pos hc, if_pos (show w.get_ws_provider.ws_provider.isSome = true from hc)]
    rfl
  · rw [if_neg hc, if_neg (show ¬ w.get_ws_provider.ws_provider.isSome = true from hc)]
    rfl

/-- `main` goes on with the trees it has found. -/
def Resumes (as : List (Str × Option (Option ℕ))) (p : Js Unit) (w : World) : Prop :=
  Adds as p w ∨ ∃ trees, as = toRestart trees ∧ p = resume trees

/-- An active tree has one listener, or one to come, or its flag is about to be taken away; an
inactive one has none. -/
structure Balanced (as : List (Str × Option (Option ℕ))) (s : Server) (a : Str) : Prop where
  le : s.world.listeners a + s.pending a + (as.map Prod.fst).count a ≤ 1
  active : s.world.isActive a = true →
    s.world.listeners a + s.pending a + (as.map Prod.fst).count a = 1 ∨
      ∃ c ∈ s.calls, c.deactivates a = true
  inactive : s.world.isActive a = false →
    s.world.listeners a + s.pending a + (as.map Prod.fst).count a = 0

/-- `main` has found the active trees, and `as` are those it has yet to subscribe to. -/
structure Aligned (regExp : Str → Str → Bool) (as : List (Str × Option (Option ℕ))) (s : Server) :
    Prop where
  main : Resumes as s.main s.world
  latest : ∀ a fromBlock, (a, some fromBlock) ∈ as →
    (s.world.db.findOne (docId a 0)).map (fun d => d.latestLeaf.blockNumber) = some fromBlock
  calls : ∀ c ∈ s.calls, CallOk regExp s.world c
  requests : s.listens = true ∨ ∀ c ∈ s.calls, ∃ a log, c.request = .newLeaf a log
  handlers : ∀ c ∈ s.calls, ∀ a log, c.request = .newLeaf a log → a ∉ as.map Prod.fst
  balanced : ∀ a, Balanced as s a

/-- `main` has found nothing yet. -/
structure Starting (s : Server) : Prop where
  main : s.main = CommitMgr.main ∨ s.main = restartSubscriptions
  calls : s.calls = []
  provider : s.world.ws_provider.getD [] = []

section Lemmas

variable {regExp : Str → Str → Bool} {as : List (Str × Option (Option ℕ))} {s : Server}
  {w w' : World} {c : Call} {a b : Str} {i : ℕ}

theorem subscribes_iff (hc : CallOk regExp w c) : c.subscribes b = true ↔
    c.request = .track b ∧
      ∃ scan, (scan = some (some 0) ∨ scan = none) ∧ Adds [(b, scan)] c.proc w := by
  obtain ⟨r, p⟩ := c
  cases r with
  | track a =>
    simp only [Call.subscribes, Bool.decide_and, Bool.and_eq_true, decide_eq_true_iff,
      Request.track.injEq]
    constructor
    · rintro ⟨rfl, hpoint⟩
      refine ⟨rfl, hc.resolve_left fun hreads => ?_⟩
      rw [Reads.point hreads] at hpoint
      cases hpoint
    · rintro ⟨rfl, scan, -, hadds⟩
      exact ⟨rfl, hadds.point⟩
  | untrack a prune => simp [Call.subscribes]
  | newLeaf a log => simp [Call.subscribes]

theorem deactivates_iff (hc : CallOk regExp w c) : c.deactivates b = true ↔
    ∃ prune, c.request = .untrack b prune ∧ Deactivates regExp b c.proc := by
  obtain ⟨r, p⟩ := c
  cases r with
  | track a => simp [Call.deactivates]
  | untrack a prune =>
    simp only [Call.deactivates, Bool.decide_and, Bool.and_eq_true, decide_eq_true_iff,
      Request.untrack.injEq]
    constructor
    · rintro ⟨rfl, hpoint⟩
      refine ⟨prune, ⟨rfl, rfl⟩, hc.resolve_left fun hremoves => ?_⟩
      rw [Removes.point hremoves] at hpoint
      cases hpoint
    · rintro ⟨prune', ⟨rfl, rfl⟩, hdeact⟩
      exact ⟨rfl, hdeact.point⟩
  | newLeaf a log => simp [Call.deactivates]

theorem CallOk.of_keeps (hc : CallOk regExp w c)
    (hk : ∀ b, c.subscribes b = true → Keeps b w w') : CallOk regExp w' c := by
  have hsub := fun b => (subscribes_iff (b := b) hc).2
  obtain ⟨r, p⟩ := c
  cases r with
  | track a =>
    rcases hc with hreads | ⟨scan, hscan, hadds⟩
    · exact .inl hreads
    · refine .inr ⟨scan, hscan, hadds.of_keeps fun x hx => ?_⟩
      rw [List.mem_singleton.1 hx]
      exact hk a (hsub a ⟨rfl, scan, hscan, hadds⟩)
  | untrack a prune => exact hc
  | newLeaf a log => exact hc

theorem Resumes.of_keeps {p : Js Unit} (h : Resumes as p w) (hk : KeepsAll as w w') :
    Resumes as p w' := by
  rcases h with hadds | hfound
  · exact .inl (hadds.of_keeps hk)
  · exact .inr hfound

theorem Balanced.of_eq {as' : List (Str × Option (Option ℕ))} {s' : Server}
    (hb : Balanced as s b)
    (hsum : s'.world.listeners b + s'.pending b + (as'.map Prod.fst).count b
      = s.world.listeners b + s.pending b + (as.map Prod.fst).count b)
    (hactive : s'.world.isActive b = s.world.isActive b)
    (hdeact : (∃ c ∈ s.calls, c.deactivates b = true) → ∃ c ∈ s'.calls, c.deactivates b = true) :
    Balanced as' s' b := by
  refine ⟨hsum.trans_le hb.le, fun h => ?_, fun h => ?_⟩
  · rw [hactive] at h
    exact (hb.active h).imp hsum.trans hdeact
  · rw [hactive] at h
    exact hsum.trans (hb.inactive h)

/-! ## A call is served -/

/-- The server once call `i` is `c'` in the world `w'`. -/
def served (s : Server) (i : ℕ) (c' : Call) (w' : World) : Server :=
  { s with world := w', calls := s.calls.set i c' }

variable {c' : Call}

theorem pending_served (c' : Call) (w' : World) (b : Str) (hc : s.calls[i]? = some c) :
    (s.served i c' w').pending b + (if c.subscribes b = true then 1 else 0)
      = s.pending b + if c'.subscribes b = true then 1 else 0 := by
  obtain ⟨hi, rfl⟩ := List.getElem?_eq_some_iff.1 hc
  have hpos : (if s.calls[i].subscribes b = true then 1 else 0) ≤ s.pending b := by
    split_ifs with hsub
    · exact List.countP_pos_iff.2 ⟨_, List.getElem_mem hi, hsub⟩
    · exact Nat.zero_le _
  have hset := List.countP_set (p := Call.subscribes b) (a := c') hi
  unfold pending served at *
  simp only [hset]
  omega

theorem exists_deactivates_served (hc : s.calls[i]? = some c)
    (h : c.deactivates b = true → c'.deactivates b = true)
    (hex : ∃ x ∈ s.calls, x.deactivates b = true) :
    ∃ x ∈ (s.served i c' w').calls, x.deactivates b = true := by
  obtain ⟨hi, rfl⟩ := List.getElem?_eq_some_iff.1 hc
  obtain ⟨x, hx, hdeact⟩ := hex
  obtain ⟨j, hj, rfl⟩ := List.mem_iff_getElem.1 hx
  rcases eq_or_ne j i with rfl | hne
  · exact ⟨c', List.mem_set hi c', h hdeact⟩
  · refine ⟨s.calls[j], List.mem_iff_getElem.2 ⟨j, by simpa [served] using hj, ?_⟩, hdeact⟩
    simp only [served]
    rw [List.getElem_set_ne hne.symm]

theorem Balanced.served (hb : Balanced as s b) (hc : s.calls[i]? = some c)
    (hlisten : w'.listeners b + (if c'.subscribes b = true then 1 else 0)
      = s.world.listeners b + if c.subscribes b = true then 1 else 0)
    (hactive : w'.isActive b = s.world.isActive b)
    (hdeact : c.deactivates b = true → c'.deactivates b = true) :
    Balanced as (s.served i c' w') b := by
  have hpending := pending_served c' w' b hc
  refine hb.of_eq ?_ hactive (exists_deactivates_served hc hdeact)
  change w'.listeners b + _ + _ = _
  omega

theorem Aligned.served (hs : Aligned regExp as s) (hok : CallOk regExp w' c')
    (hreq : c'.request = c.request) (hmem : c ∈ s.calls)
    (hkeep : ∀ b, 0 < s.pending b + (as.map Prod.fst).count b → Keeps b s.world w')
    (hlatest : ∀ x ∈ as, w'.db.findOne (docId x.1 0) = s.world.db.findOne (docId x.1 0))
    (hbal : ∀ b, Balanced as (s.served i c' w') b) : Aligned regExp as (s.served i c' w') := by
  have hcases : ∀ x ∈ (s.served i c' w').calls, x ∈ s.calls ∨ x = c' :=
    fun x hx => List.mem_or_eq_of_mem_set hx
  refine ⟨?_, ?_, ?_, ?_, ?_, hbal⟩
  · refine hs.main.of_keeps fun x hx => hkeep x.1 ?_
    exact Nat.add_pos_right _ (List.count_pos_iff.2 (List.mem_map.2 ⟨x, hx, rfl⟩))
  · intro a fromBlock hmem'
    change (w'.db.findOne (docId a 0)).map _ = _
    rw [hlatest _ hmem']
    exact hs.latest a fromBlock hmem'
  · intro x hx
    rcases hcases x hx with hx | rfl
    · refine (hs.calls x hx).of_keeps fun b hsub => hkeep b ?_
      exact Nat.add_pos_left (List.countP_pos_iff.2 ⟨x, hx, hsub⟩) _
    · exact hok
  · refine hs.requests.imp_right fun hall x hx => ?_
    rcases hcases x hx with hx | rfl
    · exact hall x hx
    · rw [hreq]
      exact hall c hmem
  · intro x hx a log hlog
    rcases hcases x hx with hx | rfl
    · exact hs.handlers x hx a log hlog
    · exact hs.handlers c hmem a log (hreq.symm.trans hlog)

theorem isActive_upsert {u : TreeUpdate} {x : Bool} (hu : u.active = some x) :
    World.isActive b { w with db := w.db.upsert (docId a 0) u }
      = if b = a then x else w.isActive b := by
  unfold World.isActive
  split_ifs with hb
  · subst hb
    obtain ⟨d, hd⟩ := Collection.exists_upsert w.db (docId b 0) u
    simp only [hd, Option.any_some, TreeUpdate.apply, hu, Option.some_or]
    cases x <;> rfl
  · rw [Collection.findOne_upsert_ne fun h => hb (docId_eq h)]

theorem keeps_upsert {u : TreeUpdate} (hb : b ≠ a) :
    Keeps b w { w with db := w.db.upsert (docId a 0) u } := by
  rw [Keeps, Collection.findOne_upsert_ne fun h => hb (docId_eq h)]

theorem Aligned.serve_newLeaf (hs : Aligned regExp as s) {log : Log} {p : Js Unit}
    (hc : s.calls[i]? = some ⟨.newLeaf a log, p⟩) :
    Aligned regExp as
      (s.served i ⟨.newLeaf a log, (p.serve s.world).1⟩ (p.serve s.world).2) := by
  have hmem := List.mem_of_getElem? hc
  have hwithin : p.Within (Touches a) := hs.calls _ hmem
  obtain ⟨htouch, hrest⟩ := hwithin.serve (Touches.refl a) s.world
  refine hs.served (c := ⟨.newLeaf a log, p⟩) hrest rfl hmem (fun b _ => htouch.keeps b)
    (fun x hx => ?_) fun b => ?_
  · have hnot := hs.handlers _ hmem a log rfl
    exact htouch.others x.1 fun h => hnot (h ▸ List.mem_map_of_mem hx)
  · exact (hs.balanced b).served hc (by rw [htouch.listeners]; rfl) (htouch.isActive b) id

/-- Requests are only there when `main` is through. -/
theorem Aligned.nil_of_request (hs : Aligned regExp as s) (hmem : c ∈ s.calls)
    (hreq : ∀ a log, c.request ≠ .newLeaf a log) : as = [] := by
  rcases hs.requests with hlistens | hall
  · have hmain := hs.main
    unfold Server.listens at hlistens
    split at hlistens
    · rename_i heq
      rw [heq] at hmain
      rcases hmain with hadds | ⟨trees, -, hp⟩
      · exact hadds
      · cases hp
    · cases hlistens
  · obtain ⟨a, log, h⟩ := hall c hmem
    exact absurd h (hreq a log)

theorem subscribes_track (p : Js Unit) : (⟨.track a, p⟩ : Call).subscribes b
    = (decide (a = b) && p.point.any AwaitPoint.isBeforeListener) := by simp [Call.subscribes]

theorem deactivates_untrack (prune : Bool) (p : Js Unit) :
    (⟨.untrack a prune, p⟩ : Call).deactivates b
      = (decide (a = b) && p.point.any AwaitPoint.isAfterUnsubscribe) := by
  simp [Call.deactivates]

/-- The tree is made active: so far there was no listener, and none to come. -/
theorem Aligned.track_upsert (hs : Aligned regExp [] s) {p p' : Js Unit} {h : ℕ}
    (hc : s.calls[i]? = some ⟨.track a, p⟩) (hreads : Reads a p)
    (hinactive : s.world.isActive a = false)
    (hw : w' = { s.world with
      db := s.world.db.upsert (docId a 0) { treeHeight := some h, active := some true } })
    (hadds : Adds [(a, some (some 0))] p' w') :
    Aligned regExp [] (s.served i ⟨.track a, p'⟩ w') := by
  have hzero : s.world.listeners a + s.pending a = 0 := (hs.balanced a).inactive hinactive
  have hnot := fun b => subscribes_track (a := a) (b := b) p
  simp only [hreads.point, Bool.and_false] at hnot
  have hyes := fun b => subscribes_track (a := a) (b := b) p'
  simp only [hadds.point, Bool.and_true] at hyes
  have hactive := fun b => isActive_upsert (w := s.world) (a := a) (b := b)
    (u := { treeHeight := some h, active := some true }) rfl
  have hlisten : ∀ b, w'.listeners b = s.world.listeners b := fun b => by rw [hw]; rfl
  refine hs.served (c := ⟨.track a, p⟩) (.inr ⟨_, .inl rfl, hadds⟩) rfl
    (List.mem_of_getElem? hc) (fun b hb => ?_) (by simp) fun b => ?_
  · rw [hw]
    refine keeps_upsert fun hba => ?_
    have hb : 0 < s.pending b := hb
    rw [hba] at hb
    omega
  · by_cases hb : b = a
    · subst hb
      have hpending := pending_served ⟨.track b, p'⟩ w' b hc
      simp only [hnot, hyes, decide_true, if_true, Bool.false_eq_true, if_false] at hpending
      have hsum : (s.served i ⟨.track b, p'⟩ w').world.listeners b
          + (s.served i ⟨.track b, p'⟩ w').pending b = 1 := by
        change w'.listeners b + _ = 1
        rw [hlisten b]
        omega
      refine ⟨hsum.le, fun _ => .inl hsum, fun h => ?_⟩
      change w'.isActive b = false at h
      rw [hw, hactive b, if_pos rfl] at h
      cases h
    · refine (hs.balanced b).served hc ?_ ?_ ?_
      · rw [hlisten b, hnot, hyes, decide_eq_false (Ne.symm hb)]
      · rw [hw, hactive b, if_neg hb]
      · exact fun h => by cases h

theorem Aligned.serve_track (hs : Aligned regExp as s) {p : Js Unit} {l : AwaitPoint}
    (hc : s.calls[i]? = some ⟨.track a, p⟩) (hl : p.point = some l)
    (hheeds : HeedsServe regExp s (.track a) l) :
    Aligned regExp as (s.served i ⟨.track a, (p.serve s.world).1⟩ (p.serve s.world).2) := by
  have hmem := List.mem_of_getElem? hc
  obtain rfl := hs.nil_of_request hmem (by simp)
  have hok : CallOk regExp s.world ⟨.track a, p⟩ := hs.calls _ hmem
  rcases hok with hreads | ⟨scan, hscan, hadds⟩
  · rcases hreads.serve hl s.world with ⟨rfl, h, hw, hadds⟩ | ⟨hw, hreads'⟩
    · exact hs.track_upsert hc hreads (Bool.not_eq_true _ ▸ hheeds) hw hadds
    · rw [hw]
      have hsub : ∀ b, (⟨.track a, (p.serve s.world).1⟩ : Call).subscribes b
          = (⟨.track a, p⟩ : Call).subscribes b := fun b => by
        rw [subscribes_track, subscribes_track, hreads.point, hreads'.point]
      refine hs.served (c := ⟨.track a, p⟩) (.inl hreads') rfl hmem (fun b _ => rfl) (by simp)
        fun b => ?_
      exact (hs.balanced b).served hc (by rw [hsub]) rfl id
  · have hserve := hadds.serve hl (fun hlogs fromBlock hfrom => ?_) fun hsub => ?_
    · rcases hserve with ⟨htouch, hrest⟩ | ⟨hw, hrest⟩
      · have hsub : ∀ b, (⟨.track a, (p.serve s.world).1⟩ : Call).subscribes b
            = (⟨.track a, p⟩ : Call).subscribes b := fun b => by
          rw [subscribes_track, subscribes_track, hadds.point, hrest.point]
        refine hs.served (c := ⟨.track a, p⟩) (.inr ⟨none, .inr rfl, hrest⟩) rfl hmem
          (fun b _ => htouch.keeps b) (by simp) fun b => ?_
        exact (hs.balanced b).served hc (by rw [hsub, htouch.listeners]) (htouch.isActive b) id
      · have hended : (p.serve s.world).1.point = none := hrest.ended
        refine hs.served (c := ⟨.track a, p⟩) (.inl (Reads.of_ended hended)) rfl hmem
          (fun b _ => by rw [hw]; rfl) (by simp) fun b => ?_
        refine (hs.balanced b).served hc ?_ (by rw [hw]; rfl) id
        rw [hw, World.listeners_listen, subscribes_track, subscribes_track, hended, hadds.point,
          Option.any_none, Bool.and_false, Bool.and_true]
        simp
    · subst hlogs
      rcases hscan with rfl | rfl
      · cases hfrom
        exact hheeds
      · cases hfrom
    · subst hsub
      exact hheeds

/-- The expression matches the tree's own document, if the tree is active, and that of no other
active tree. -/
def MatchesOwn (regExp : Str → Str → Bool) (a : Str) (w : World) : Prop :=
  ∀ d ∈ w.db.docs, ['_', '0'] <:+ d._id → d.active = some true →
    (regExp a d._id = true ↔ d._id = docId a 0)

theorem MatchesOwn.findOne (hm : MatchesOwn regExp a w) (hb : b ≠ a)
    (hactive : w.isActive b = true) :
    (w.db.deleteMany fun d => regExp a d._id).findOne (docId b 0) = w.db.findOne (docId b 0) := by
  obtain ⟨d, hd, hact⟩ := World.isActive_iff.1 hactive
  have hid := Collection.findOne_id hd
  have hno : regExp a d._id ≠ true := fun h =>
    hb (docId_eq (hid.symm.trans ((hm d (Collection.mem_of_findOne hd) ⟨b, hid.symm⟩ hact).1 h)))
  rw [Collection.findOne_deleteMany, hd, Option.filter_some, if_pos (by simpa using hno)]

theorem MatchesOwn.isActive (hm : MatchesOwn regExp a w) (b : Str) :
    World.isActive b { w with db := w.db.deleteMany fun d => regExp a d._id }
      = if b = a then false else w.isActive b := by
  rcases hact : w.isActive b with _ | _
  · rw [ite_self, World.isActive, Collection.findOne_deleteMany]
    unfold World.isActive at hact
    rcases hd : w.db.findOne (docId b 0) with _ | d
    · rfl
    · rw [hd] at hact
      rw [Option.filter_some]
      split_ifs
      · exact hact
      · rfl
  · split_ifs with hb
    · subst hb
      obtain ⟨d, hd, hact⟩ := World.isActive_iff.1 hact
      have hid := Collection.findOne_id hd
      have hyes := (hm d (Collection.mem_of_findOne hd) ⟨b, hid.symm⟩ hact).2 hid
      rw [World.isActive, Collection.findOne_deleteMany, hd, Option.filter_some,
        if_neg (by simp [hyes]), Option.any_none]
    · rw [World.isActive, hm.findOne hb hact, ← World.isActive, hact]

/-- The tree is made inactive: there is no listener any more, and none to come. -/
theorem Aligned.untrack_write (hs : Aligned regExp [] s) {prune : Bool} {p p' : Js Unit}
    (hc : s.calls[i]? = some ⟨.untrack a prune, p⟩) (hended : p'.point = none)
    (hlisteners : s.world.listeners a = 0) (hpending : ∀ c ∈ s.calls, ¬ c.subscribes a)
    (hw : ∀ b, w'.listeners b = s.world.listeners b)
    (hactive : ∀ b, w'.isActive b = if b = a then false else s.world.isActive b)
    (hkeep : ∀ b ≠ a, s.world.isActive b = true → Keeps b s.world w') :
    Aligned regExp [] (s.served i ⟨.untrack a prune, p'⟩ w') := by
  have hpending₀ : s.pending a = 0 := List.countP_eq_zero.2 hpending
  have hsame : ∀ b, (s.served i ⟨.untrack a prune, p'⟩ w').pending b = s.pending b := fun b =>
    pending_served ⟨.untrack a prune, p'⟩ w' b hc
  refine hs.served (c := ⟨.untrack a prune, p⟩) (.inl (Removes.of_ended hended)) rfl
    (List.mem_of_getElem? hc) (fun b hb => ?_) (by simp) fun b => ?_
  · have hb : 0 < s.pending b := hb
    refine hkeep b (fun hba => ?_) ?_
    · rw [hba] at hb
      omega
    · by_contra hact
      have hzero : s.world.listeners b + s.pending b = 0 :=
        (hs.balanced b).inactive (Bool.not_eq_true _ ▸ hact)
      omega
  · by_cases hb : b = a
    · subst hb
      have hsum : w'.listeners b + (s.served i ⟨.untrack b prune, p'⟩ w').pending b = 0 := by
        rw [hw, hsame]
        omega
      refine ⟨hsum.le.trans (Nat.zero_le 1), fun h => ?_, fun _ => hsum⟩
      change w'.isActive b = true at h
      rw [hactive, if_pos rfl] at h
      cases h
    · refine (hs.balanced b).served hc ?_ ?_ fun h => ?_
      · rw [hw]
        rfl
      · rw [hactive, if_neg hb]
      · rw [deactivates_untrack, decide_eq_false (Ne.symm hb), Bool.false_and] at h
        cases h

/-- The listeners are gone, and the tree is about to be made inactive. -/
theorem Aligned.untrack_unsubscribe (hs : Aligned regExp [] s) {prune : Bool} {p p' : Js Unit}
    (hc : s.calls[i]? = some ⟨.untrack a prune, p⟩) (hremoves : Removes regExp a p)
    (hdeact : Deactivates regExp a p') :
    Aligned regExp [] (s.served i ⟨.untrack a prune, p'⟩ (s.world.unlisten a)) := by
  obtain ⟨hi, -⟩ := List.getElem?_eq_some_iff.1 hc
  refine hs.served (c := ⟨.untrack a prune, p⟩) (.inr hdeact) rfl (List.mem_of_getElem? hc)
    (fun b _ => rfl) (by simp) fun b => ?_
  by_cases hb : b = a
  · subst hb
    have hpending : (s.served i ⟨.untrack b prune, p'⟩ (s.world.unlisten b)).pending b
        = s.pending b := pending_served _ _ b hc
    have hsum : (s.served i ⟨.untrack b prune, p'⟩ (s.world.unlisten b)).world.listeners b
        = 0 := (World.listeners_unlisten b b s.world).trans (if_pos rfl)
    have hbal := hs.balanced b
    refine ⟨?_, fun _ => .inr ⟨_, List.mem_set hi _, ?_⟩, fun h => ?_⟩
    · rw [hsum, hpending]
      have := hbal.le
      omega
    · rw [deactivates_untrack, hdeact.point, decide_eq_true rfl, Bool.and_true]
    · rw [hsum, hpending]
      have := hbal.inactive h
      omega
  · refine (hs.balanced b).served hc ?_ rfl fun h => ?_
    · rw [World.listeners_unlisten, if_neg (Ne.symm hb)]
      rfl
    · rw [deactivates_untrack, hremoves.point, Bool.and_false] at h
      cases h

theorem Aligned.serve_untrack (hs : Aligned regExp as s) {prune : Bool} {p : Js Unit}
    {l : AwaitPoint} (hc : s.calls[i]? = some ⟨.untrack a prune, p⟩) (hl : p.point = some l)
    (hheeds : HeedsServe regExp s (.untrack a prune) l) :
    Aligned regExp as
      (s.served i ⟨.untrack a prune, (p.serve s.world).1⟩ (p.serve s.world).2) := by
  have hmem := List.mem_of_getElem? hc
  obtain rfl := hs.nil_of_request hmem (by simp)
  have hok : CallOk regExp s.world ⟨.untrack a prune, p⟩ := hs.calls _ hmem
  rcases hok with hremoves | hdeact
  · have hnot : ∀ b, (⟨.untrack a prune, p⟩ : Call).deactivates b = false := fun b => by
      rw [deactivates_untrack, hremoves.point, Bool.and_false]
    rcases hremoves.serve hl s.world with ⟨hw, hdeact⟩ | ⟨hw, hremoves'⟩
    · rw [hw]
      exact hs.untrack_unsubscribe hc hremoves hdeact
    · rw [hw]
      refine hs.served (c := ⟨.untrack a prune, p⟩) (.inl hremoves') rfl hmem (fun b _ => rfl)
        (by simp) fun b => ?_
      exact (hs.balanced b).served hc rfl rfl fun h => by rw [hnot] at h; cases h
  · obtain ⟨hended, hw | hw⟩ := hdeact.serve hl s.world
    · obtain ⟨rfl, hw⟩ := hw
      obtain ⟨hlisteners, hpending, hmatches⟩ := hheeds
      have hm : MatchesOwn regExp a s.world := hmatches
      refine hs.untrack_write hc hended hlisteners hpending (fun b => by rw [hw]; rfl)
        (fun b => by rw [hw]; exact hm.isActive b) fun b hb hact => ?_
      rw [hw, Keeps, hm.findOne hb hact]
    · obtain ⟨rfl, hw⟩ := hw
      obtain ⟨hlisteners, hpending⟩ := hheeds
      refine hs.untrack_write hc hended hlisteners hpending (fun b => by rw [hw]; rfl)
        (fun b => by rw [hw]; exact isActive_upsert rfl) fun b hb _ => ?_
      rw [hw]
      exact keeps_upsert hb

/-! ## `main` is served -/

theorem Aligned.isActive_of_mem (hs : Aligned regExp as s) {x : Str × Option (Option ℕ)}
    (hx : x ∈ as) : s.world.isActive x.1 = true ∧ s.world.listeners x.1 = 0 := by
  have hcount : 0 < (as.map Prod.fst).count x.1 := List.count_pos_iff.2 (List.mem_map_of_mem hx)
  have hbal := hs.balanced x.1
  refine ⟨?_, by have := hbal.le; omega⟩
  by_contra hact
  have := hbal.inactive (Bool.not_eq_true _ ▸ hact)
  omega

theorem Aligned.started (hs : Aligned regExp as s) {as' : List (Str × Option (Option ℕ))}
    {p' : Js Unit} (hpoint : s.main.point ≠ none) (hmain : Resumes as' p' w')
    (hsub : as'.map Prod.fst ⊆ as.map Prod.fst)
    (hlatest : ∀ a fromBlock, (a, some fromBlock) ∈ as' → (a, some fromBlock) ∈ as ∧
      w'.db.findOne (docId a 0) = s.world.db.findOne (docId a 0))
    (hkeep : ∀ b, Keeps b s.world w')
    (hsum : ∀ b, w'.listeners b + (as'.map Prod.fst).count b
      = s.world.listeners b + (as.map Prod.fst).count b)
    (hactive : ∀ b, w'.isActive b = s.world.isActive b) :
    Aligned regExp as' { s with world := w', main := p' } := by
  refine ⟨hmain, fun a fromBlock hmem => ?_, fun c hc => ?_, ?_, fun c hc a log hlog hmem => ?_,
    fun b => ?_⟩
  · obtain ⟨hmem', hdoc⟩ := hlatest a fromBlock hmem
    rw [hdoc]
    exact hs.latest a fromBlock hmem'
  · exact (hs.calls c hc).of_keeps fun b _ => hkeep b
  · refine .inr (hs.requests.resolve_left fun hlistens => hpoint ?_)
    unfold Server.listens at hlistens
    split at hlistens
    · rename_i heq
      rw [heq]
      rfl
    · cases hlistens
  · exact hs.handlers c hc a log hlog (hsub hmem)
  · refine (hs.balanced b).of_eq ?_ (hactive b) id
    have := hsum b
    change w'.listeners b + s.pending b + _ = _
    omega

theorem Aligned.start_adds (hs : Aligned regExp as s) (hadds : Adds as s.main s.world)
    {l : AwaitPoint} (hl : s.main.point = some l) (hheeds : HeedsStart s l) :
    ∃ as', Aligned regExp as' { s with
      world := (s.main.serve s.world).2
      main := (s.main.serve s.world).1 } := by
  have hpoint : s.main.point ≠ none := by rw [hl]; simp
  rcases as with _ | ⟨⟨a, scan⟩, as⟩
  · exact absurd hadds.ended hpoint
  obtain ⟨hact, hzero⟩ := hs.isActive_of_mem List.mem_cons_self
  have hserve := hadds.serve hl (fun hlogs fromBlock hfrom => ?_) fun hsub => ?_
  · rcases hserve with ⟨htouch, hrest⟩ | ⟨hw, hrest⟩
    · refine ⟨(a, none) :: as, hs.started hpoint (.inl hrest) (List.Subset.refl _)
        (fun b fromBlock hmem => ?_) htouch.keeps (fun b => ?_) htouch.isActive⟩
      · have hmem : (b, some fromBlock) ∈ as := by simpa using hmem
        refine ⟨List.mem_cons_of_mem _ hmem, htouch.others b fun hba => ?_⟩
        have hle := (hs.balanced a).le
        have hcount : 0 < (as.map Prod.fst).count a :=
          List.count_pos_iff.2 (hba ▸ List.mem_map_of_mem hmem)
        rw [List.map_cons, List.count_cons_self] at hle
        omega
      · rw [htouch.listeners]
        rfl
    · refine ⟨as, hs.started hpoint (.inl hrest) (List.subset_cons_self _ _)
        (fun b fromBlock hmem => ⟨List.mem_cons_of_mem _ hmem, by rw [hw]; rfl⟩)
        (fun b => by rw [hw]; rfl) (fun b => ?_) fun b => by rw [hw]; rfl⟩
      rw [hw, World.listeners_listen, List.map_cons, List.count_cons]
      simp only [beq_iff_eq]
      omega
  · subst hlogs
    subst hfrom
    obtain ⟨d, hd, hdact⟩ := World.isActive_iff.1 hact
    have hlatest := hs.latest a fromBlock List.mem_cons_self
    rw [hd, Option.map_some, Option.some.injEq] at hlatest
    have hid := Collection.findOne_id hd
    have hdrop : d._id.dropLast.dropLast = a := by rw [hid]; simp [docId]
    have hscan := hheeds d (Collection.mem_of_findOne hd) ⟨a, hid.symm⟩ hdact
    rw [hdrop, hlatest] at hscan
    exact hscan hzero
  · subst hsub
    exact hheeds

theorem Aligned.start_found (hs : Aligned regExp as s) {trees : List TreeDoc}
    (has : as = toRestart trees) (hmain : s.main = resume trees)
    (hheeds : HeedsStart s .restartSubscriptions_provider) :
    Aligned regExp as { s with
      world := (s.main.serve s.world).2
      main := (s.main.serve s.world).1 } := by
  have hpoint : s.main.point ≠ none := by rw [hmain]; nofun
  rw [hmain, serve_resume]
  have hresumes : Adds as (if s.world.Connects then restartTrees trees else .throw .typeError)
      s.world.get_ws_provider := by
    split_ifs with hc
    · rw [has]
      refine adds_restartTrees trees fun tree htree => ?_
      have hmem : (tree._id.dropLast.dropLast, some tree.latestLeaf.blockNumber) ∈ as :=
        has ▸ List.mem_map_of_mem htree
      obtain ⟨d, hd, -⟩ := World.isActive_iff.1 (hs.isActive_of_mem hmem).1
      exact Option.isSome_iff_exists.2 ⟨d, hd⟩
    · refine List.eq_nil_iff_forall_not_mem.2 fun x hx => ?_
      obtain ⟨d, hd, hact⟩ := World.isActive_iff.1 (hs.isActive_of_mem hx).1
      exact hheeds.resolve_left hc d (Collection.mem_of_findOne hd)
        ⟨x.1, (Collection.findOne_id hd).symm⟩ hact
  refine hs.started hpoint (.inl hresumes) (List.Subset.refl _)
    (fun a fromBlock hmem => ⟨hmem, rfl⟩) (fun b => rfl) (fun b => ?_) fun b => rfl
  rw [World.listeners_get_ws_provider]

theorem Aligned.start (hs : Aligned regExp as s)
    (hheeds : ∀ l ∈ s.main.point, HeedsStart s l) :
    ∃ as', Aligned regExp as' { s with
      world := (s.main.serve s.world).2
      main := (s.main.serve s.world).1 } := by
  rcases hl : s.main.point with _ | l
  · refine ⟨as, ?_⟩
    rw [Proc.serve_of_ended hl]
    exact hs
  · rcases hs.main with hadds | ⟨trees, has, hmain⟩
    · exact hs.start_adds hadds hl (hheeds l hl)
    · refine ⟨as, hs.start_found has hmain (hheeds _ ?_)⟩
      rw [hmain]
      rfl

/-! ## The trees that are found -/

/-- The query of `restartSubscriptions`. -/
def activeTrees (w : World) : List TreeDoc :=
  w.db.find fun d => (['_', '0'] <:+ d._id) ∧ d.active = some true

theorem mem_activeTrees {tree : TreeDoc} : tree ∈ activeTrees w ↔
    w.db.findOne (docId tree._id.dropLast.dropLast 0) = some tree ∧ tree.active = some true := by
  unfold activeTrees Collection.find
  simp only [List.mem_filter, decide_eq_true_iff, Collection.findOne_eq_some_iff]
  constructor
  · rintro ⟨hmem, ⟨a, ha⟩, hact⟩
    refine ⟨⟨hmem, ?_⟩, hact⟩
    rw [← ha]
    simp [docId]
  · rintro ⟨⟨hmem, hid⟩, hact⟩
    exact ⟨hmem, ⟨_, hid.symm⟩, hact⟩

theorem count_activeTrees (w : World) (a : Str) :
    ((toRestart (activeTrees w)).map Prod.fst).count a = if w.isActive a = true then 1 else 0 := by
  have hmap : (toRestart (activeTrees w)).map Prod.fst
      = (activeTrees w).map fun tree => tree._id.dropLast.dropLast := by
    rw [toRestart, List.map_map]
    rfl
  have hnodup : ((activeTrees w).map fun tree => tree._id.dropLast.dropLast).Nodup := by
    refine List.Nodup.map_on (fun x hx y hy hxy => ?_) (w.db.nodup.of_map.filter _)
    have hx := (mem_activeTrees.1 hx).1
    rw [hxy, (mem_activeTrees.1 hy).1] at hx
    exact (Option.some.inj hx).symm
  rw [hmap]
  split_ifs with hact
  · obtain ⟨d, hd, hdact⟩ := World.isActive_iff.1 hact
    have hdrop : d._id.dropLast.dropLast = a := by
      rw [Collection.findOne_id hd]
      simp [docId]
    have hmem : d ∈ activeTrees w := mem_activeTrees.2 ⟨hdrop ▸ hd, hdact⟩
    exact List.count_eq_one_of_mem hnodup (List.mem_map.2 ⟨d, hmem, hdrop⟩)
  · refine List.count_eq_zero_of_not_mem fun hmem => hact ?_
    obtain ⟨d, hd, rfl⟩ := List.mem_map.1 hmem
    exact World.isActive_iff.2 ⟨d, mem_activeTrees.1 hd⟩

theorem Starting.start (hs : Starting s) :
    Starting { s with world := (s.main.serve s.world).2, main := (s.main.serve s.world).1 } ∨
      ∃ as, Aligned regExp as
        { s with world := (s.main.serve s.world).2, main := (s.main.serve s.world).1 } := by
  rcases hs.main with hmain | hmain
  · left
    rw [hmain]
    exact ⟨.inr rfl, hs.calls, (World.getD_get_ws_provider _).trans hs.provider⟩
  · refine .inr ⟨toRestart (activeTrees s.world), ?_⟩
    have hserve : s.main.serve s.world = (resume (activeTrees s.world), s.world) := by
      rw [hmain]
      rfl
    rw [hserve]
    refine ⟨.inr ⟨_, rfl, rfl⟩, fun a fromBlock hmem => ?_, ?_, .inr ?_, ?_, fun b => ?_⟩
    · obtain ⟨tree, htree, heq⟩ := List.mem_map.1 hmem
      obtain ⟨rfl, hfrom⟩ := Prod.mk.inj heq
      rw [(mem_activeTrees.1 htree).1, Option.map_some, Option.some.inj hfrom]
    · simp [hs.calls]
    · simp [hs.calls]
    · simp [hs.calls]
    · have hcount := count_activeTrees s.world b
      have hlisteners : s.world.listeners b = 0 := by
        rw [World.listeners, hs.provider, List.count_nil]
      have hpending : s.pending b = 0 := by rw [pending, hs.calls, List.countP_nil]
      have hsum : s.world.listeners b + s.pending b
          + ((toRestart (activeTrees s.world)).map Prod.fst).count b
          = if s.world.isActive b = true then 1 else 0 := by omega
      refine ⟨hsum.trans_le ?_, fun h => .inl (hsum.trans (if_pos h)), fun h => ?_⟩
      · split_ifs <;> omega
      · change s.world.isActive b = false at h
        exact hsum.trans (if_neg (by simp [h]))

/-! ## The other events -/

/-- More calls arrive, and what is outside of the database changes. -/
theorem Aligned.grow (hs : Aligned regExp as s) (w' : World) (cs : List Call)
    (hdb : w'.db = s.world.db) (hlisten : ∀ b, w'.listeners b = s.world.listeners b)
    (hok : ∀ c ∈ cs, CallOk regExp w' c) (hsub : ∀ c ∈ cs, ∀ b, c.subscribes b = false)
    (hreq : s.listens = true ∨ ∀ c ∈ cs, ∃ a log, c.request = .newLeaf a log)
    (hhandlers : ∀ c ∈ cs, ∀ a log, c.request = .newLeaf a log → a ∉ as.map Prod.fst) :
    Aligned regExp as { s with world := w', calls := s.calls ++ cs } := by
  have hkeep : ∀ b, Keeps b s.world w' := fun b => by rw [Keeps, hdb]
  have hmem : ∀ c ∈ s.calls ++ cs, c ∈ s.calls ∨ c ∈ cs := fun c => List.mem_append.1
  refine ⟨hs.main.of_keeps fun x _ => hkeep x.1, fun a fromBlock hx => ?_, fun c hc => ?_, ?_,
    fun c hc => ?_, fun b => ?_⟩
  · change (w'.db.findOne _).map _ = _
    rw [hdb]
    exact hs.latest a fromBlock hx
  · rcases hmem c hc with hc | hc
    · exact (hs.calls c hc).of_keeps fun b _ => hkeep b
    · exact hok c hc
  · rcases hs.requests with hlistens | hall
    · exact .inl hlistens
    · refine hreq.imp_right fun hnew c hc => ?_
      rcases hmem c hc with hc | hc
      · exact hall c hc
      · exact hnew c hc
  · rcases hmem c hc with hc | hc
    · exact hs.handlers c hc
    · exact hhandlers c hc
  · have hnone : cs.countP (Call.subscribes b) = 0 :=
      List.countP_eq_zero.2 fun c hc => by simp [hsub c hc b]
    have hpending : ({ s with world := w', calls := s.calls ++ cs } : Server).pending b
        = s.pending b := by
      unfold pending
      rw [List.countP_append, hnone, Nat.add_zero]
    have hactive : w'.isActive b = s.world.isActive b := by
      rw [World.isActive, hdb, World.isActive]
    refine (hs.balanced b).of_eq ?_ hactive ?_
    · rw [hpending]
      change w'.listeners b + _ + _ = _
      rw [hlisten]
    · rintro ⟨c, hc, hdeact⟩
      exact ⟨c, List.mem_append_left _ hc, hdeact⟩

theorem Aligned.outside (hs : Aligned regExp as s) (w' : World) (hdb : w'.db = s.world.db)
    (hlisten : ∀ b, w'.listeners b = s.world.listeners b) :
    Aligned regExp as { s with world := w' } := by
  have hgrow := hs.grow w' [] hdb hlisten (by simp) (by simp) (.inr (by simp)) (by simp)
  rwa [List.append_nil] at hgrow

theorem Aligned.receive (hs : Aligned regExp as s) (hok : CallOk regExp s.world c)
    (hsub : ∀ b, c.subscribes b = false) (hreq : ∀ a log, c.request ≠ .newLeaf a log) :
    Aligned regExp as (s.receive c) := by
  unfold Server.receive
  split_ifs with hlistens
  · refine hs.grow s.world [c] rfl (fun _ => rfl) (fun x hx => ?_) (fun x hx => ?_)
      (.inl hlistens) fun x hx a log h => ?_
    · exact List.mem_singleton.1 hx ▸ hok
    · exact List.mem_singleton.1 hx ▸ hsub
    · exact absurd (List.mem_singleton.1 hx ▸ h) (hreq a log)
  · exact hs

theorem Aligned.mine (hs : Aligned regExp as s) (b : Block) : Aligned regExp as { s with
    world := s.world.mine b
    calls := s.calls ++
      (s.world.deliveries b).map fun x => ⟨.newLeaf x.1 x.2, onNewLeaf x.1 x.2⟩ } := by
  refine hs.grow (s.world.mine b) _ rfl (fun _ => rfl) (fun c hc => ?_) (fun c hc => ?_)
    (.inr fun c hc => ?_) fun c hc a log hlog hmem => ?_
  all_goals obtain ⟨x, hx, rfl⟩ := List.mem_map.1 hc
  · exact insertLeaf_within x.1 x.2.leaf
  · exact fun _ => rfl
  · exact ⟨x.1, x.2, rfl⟩
  · -- the tree is listened to, so `main` is done with it
    obtain ⟨rfl, -⟩ : x.1 = a ∧ x.2 = log := by simpa using hlog
    obtain ⟨y, hy, hya⟩ := List.mem_map.1 hmem
    obtain ⟨a, ha, hxa⟩ := List.mem_flatMap.1 hx
    obtain ⟨log, -, rfl⟩ := List.mem_map.1 hxa
    have hzero := (hs.isActive_of_mem hy).2
    rw [hya] at hzero
    exact absurd ha (List.count_eq_zero.1 hzero)

/-- Before or after `main` has found the active trees. -/
def Coherent (regExp : Str → Str → Bool) (s : Server) : Prop :=
  Starting s ∨ ∃ as, Aligned regExp as s

theorem coherent_boot (w : World) : Coherent regExp (boot w) := .inl ⟨.inl rfl, rfl, rfl⟩

theorem Starting.happen (hs : Starting s) (e : LifeEvent) :
    Coherent regExp (s.happen regExp e) := by
  have hlistens : ¬ s.listens := by
    rcases hs.main with hmain | hmain <;>
      · unfold Server.listens
        rw [hmain]
        nofun
  cases e with
  | track a => exact .inl (by rwa [Server.happen, Server.receive, if_neg hlistens])
  | untrack a prune => exact .inl (by rwa [Server.happen, Server.receive, if_neg hlistens])
  | serve i =>
    rw [Server.happen, hs.calls, List.getElem?_nil]
    exact .inl hs
  | start => exact hs.start
  | mine b =>
    refine .inl ⟨hs.main, ?_, hs.provider⟩
    simp [Server.happen, hs.calls, World.deliveries, hs.provider]
  | client rpc => exact .inl ⟨hs.main, hs.calls, hs.provider⟩
  | connection wsUp => exact .inl ⟨hs.main, hs.calls, hs.provider⟩
  | drop => exact .inl ⟨hs.main, hs.calls, rfl⟩
  | restart => exact coherent_boot s.world

theorem Aligned.serve (hs : Aligned regExp as s) (hc : s.calls[i]? = some c)
    (hheeds : ∀ l ∈ c.proc.point, HeedsServe regExp s c.request l) :
    Aligned regExp as
      (s.served i { c with proc := (c.proc.serve s.world).1 } (c.proc.serve s.world).2) := by
  obtain ⟨r, p⟩ := c
  rcases hl : p.point with _ | l
  · obtain ⟨hi, hget⟩ := List.getElem?_eq_some_iff.1 hc
    rw [Proc.serve_of_ended hl, Server.served, ← hget, List.set_getElem_self]
    exact hs
  · cases r with
    | track a => exact hs.serve_track hc hl (hheeds l hl)
    | untrack a prune => exact hs.serve_untrack hc hl (hheeds l hl)
    | newLeaf a log => exact hs.serve_newLeaf hc

theorem Aligned.happen (hs : Aligned regExp as s) {e : LifeEvent} (he : Heeds regExp s e) :
    Coherent regExp (s.happen regExp e) := by
  cases e with
  | track a =>
    have hreads := reads_baseline_track a
    refine .inr ⟨as, hs.receive (.inl hreads) (fun b => ?_) (by simp)⟩
    rw [subscribes_track, hreads.point, Bool.and_false]
  | untrack a prune =>
    refine .inr ⟨as, hs.receive (.inl (removes_baseline_untrack regExp a prune)) (fun b => ?_)
      (by simp)⟩
    rfl
  | serve i =>
    rcases hc : s.calls[i]? with _ | c
    · rw [Server.happen, hc]
      exact .inr ⟨as, hs⟩
    · rw [Server.happen, hc]
      exact .inr ⟨as, hs.serve hc (he c hc)⟩
  | start => exact .inr (hs.start he)
  | mine b => exact .inr ⟨as, hs.mine b⟩
  | client rpc => exact .inr ⟨as, hs.outside { s.world with rpc } rfl fun _ => rfl⟩
  | connection wsUp => exact .inr ⟨as, hs.outside { s.world with wsUp } rfl fun _ => rfl⟩
  | drop =>
    have hnone : s.world.ws_provider.getD [] = [] := he
    refine .inr ⟨as, hs.outside { s.world with ws_provider := none } rfl fun b => ?_⟩
    rw [World.listeners, World.listeners, hnone, Option.getD_none]
  | restart => exact .inl ⟨.inl rfl, rfl, rfl⟩

theorem coherent_runs {events : List LifeEvent}
    (h : Along (happen regExp) (Heeds regExp) (boot w) events) :
    Coherent regExp ((boot w).runs regExp events) := by
  refine h.run (fun s e hs he => ?_) (coherent_boot w)
  rcases hs with hstarting | ⟨as, haligned⟩
  · exact hstarting.happen e
  · exact haligned.happen he

/-! ## No request is in progress -/

theorem Aligned.idle (hs : Aligned regExp as s) (hidle : s.Idle) (a : Str) :
    s.world.isActive a = true ↔ s.world.listeners a = 1 := by
  obtain ⟨hmain, hcalls⟩ := hidle
  have hnil : as = [] := by
    rcases hs.main with hadds | ⟨trees, -, hp⟩
    · rcases as with _ | ⟨⟨b, scan⟩, as⟩
      · rfl
      · have hpoint := hadds.point
        rw [hmain] at hpoint
        cases hpoint
    · rw [hp] at hmain
      cases hmain
  subst hnil
  have hpending : s.pending a = 0 := List.countP_eq_zero.2 fun c hc hsub => by
    obtain ⟨-, scan, -, hadds⟩ := (subscribes_iff (hs.calls c hc)).1 hsub
    have hpoint := hadds.point
    rw [hcalls c hc] at hpoint
    cases hpoint
  have hbal := hs.balanced a
  have hno : ¬ ∃ c ∈ s.calls, c.deactivates a = true := by
    rintro ⟨c, hc, hdeact⟩
    obtain ⟨prune, -, hd⟩ := (deactivates_iff (hs.calls c hc)).1 hdeact
    have hpoint := hd.point
    rw [hcalls c hc] at hpoint
    cases hpoint
  constructor
  · intro hact
    have hsum := (hbal.active hact).resolve_right hno
    simpa [hpending] using hsum
  · intro hlisten
    by_contra hact
    have hsum := hbal.inactive (Bool.not_eq_true _ ▸ hact)
    omega

/-- Active means listening, after every run of heeded steps. -/
theorem active_iff_listening (regExp : Str → Str → Bool) (w : World) {events : List LifeEvent}
    (h : Along (happen regExp) (Heeds regExp) (boot w) events)
    (hidle : ((boot w).runs regExp events).Idle) (a : Str) :
    ((boot w).runs regExp events).world.isActive a = true ↔
      ((boot w).runs regExp events).world.listeners a = 1 := by
  rcases coherent_runs h with hstarting | ⟨as, haligned⟩
  · rcases hstarting.main with hmain | hmain <;>
      · have hpoint := hidle.1
        rw [hmain] at hpoint
        cases hpoint
  · exact haligned.idle hidle a

/-- Tracked, restarted, untracked and tracked again. -/
theorem active_iff_listening_again :
    let events : List LifeEvent :=
      [.start, .start, .start, .track (contractOf 'a'), .serve 0, .serve 0, .serve 0, .serve 0,
        .serve 0, .restart, .start, .start, .start, .start, .start,
        .untrack (contractOf 'a') false, .serve 0, .serve 0, .serve 0,
        .track (contractOf 'a'), .serve 1, .serve 1, .serve 1, .serve 1, .serve 1]
    let s := (boot (newWorld 1)).runs matchesText events
    s.world.isActive (contractOf 'a') = true ↔ s.world.listeners (contractOf 'a') = 1 :=
  active_iff_listening matchesText (newWorld 1) (by decide +kernel) (by decide +kernel)
    (contractOf 'a')

/-- After the WebSocket has closed, the first tree is active and has no listener, also when a
second one has made the service connect again. -/
theorem active_unheard_after_drop :
    let events : List LifeEvent :=
      [.start, .start, .start, .track (contractOf 'a'), .serve 0, .serve 0, .serve 0, .serve 0,
        .serve 0, .drop, .track (contractOf 'b'), .serve 1, .serve 1, .serve 1, .serve 1, .serve 1]
    let s := (boot (newWorld 1)).runs matchesText events
    s.Idle ∧ s.world.isActive (contractOf 'a') = true ∧ s.world.listeners (contractOf 'a') = 0 ∧
      s.world.ws_provider = some [contractOf 'b'] := by
  decide +kernel

end Lemmas

end Server

end CommitMgr

end Baseline
