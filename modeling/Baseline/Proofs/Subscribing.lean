import Baseline.Lifecycle
import Baseline.Proofs.Store

/-!
# Calls on their way to a listener

Each call of a service is somewhere between what it has done to a tree's flag and what it has yet
to do to its listeners. A call that has made a tree active is bound to add its listener, if the
points it is served at are heeded (`Adds.serve`); before that it only reads (`Reads`), like a call
that has yet to remove listeners (`Removes`); and a handler changes neither (`Touches`).
-/

namespace Baseline

open Await

/-! ## What an access changes -/

/-- The flag and the height of every tree stay, and all of the documents of other addresses. -/
structure Touches (a : Str) (w w' : World) : Prop where
  ws_provider : w'.ws_provider = w.ws_provider
  chain : w'.chain = w.chain
  heights : w'.heights = w.heights
  own : (w'.db.findOne (docId a 0)).map (fun d => (d.treeHeight, d.active))
    = (w.db.findOne (docId a 0)).map fun d => (d.treeHeight, d.active)
  others : ∀ b ≠ a, w'.db.findOne (docId b 0) = w.db.findOne (docId b 0)

/-- The tree's document stays, with its height. -/
def Keeps (a : Str) (w w' : World) : Prop :=
  (w'.db.findOne (docId a 0)).map TreeDoc.treeHeight
    = (w.db.findOne (docId a 0)).map TreeDoc.treeHeight

theorem Keeps.trans {a : Str} {w w' w'' : World} (h : Keeps a w w') (h' : Keeps a w' w'') :
    Keeps a w w'' := Eq.trans h' h

theorem Keeps.doc {a : Str} {w w' : World} {d : TreeDoc} (h : Keeps a w w')
    (hd : w.db.findOne (docId a 0) = some d) :
    ∃ d', w'.db.findOne (docId a 0) = some d' ∧ d'.treeHeight = d.treeHeight := by
  rw [Keeps, hd] at h
  exact Option.map_eq_some_iff.1 h

namespace World

/-- A listener is added. -/
def listen (a : Str) (w : World) : World :=
  { w.get_ws_provider with ws_provider := some (w.get_ws_provider.ws_provider.getD [] ++ [a]) }

/-- All listeners of an address are taken away. -/
def unlisten (a : Str) (w : World) : World :=
  { w.get_ws_provider with
    ws_provider := some ((w.get_ws_provider.ws_provider.getD []).filter (· ≠ a)) }

theorem getD_get_ws_provider (w : World) :
    w.get_ws_provider.ws_provider.getD [] = w.ws_provider.getD [] := by
  unfold get_ws_provider
  rcases w.ws_provider with _ | ls
  · cases w.wsUp <;> rfl
  · rfl

theorem get_ws_provider_of_not_connects {w : World} (h : ¬ w.Connects) : w.get_ws_provider = w := by
  have hnone := Option.not_isSome_iff_eq_none.1 h
  obtain ⟨db, chain, heights, rpc, wsUp, ws_provider⟩ := w
  simp only [get_ws_provider, Option.or_eq_none_iff] at hnone ⊢
  obtain ⟨rfl, hdown⟩ := hnone
  rw [hdown, Option.or_none]

theorem listeners_get_ws_provider (a : Str) (w : World) :
    w.get_ws_provider.listeners a = w.listeners a := by
  rw [listeners, listeners, getD_get_ws_provider]

theorem listeners_listen (a b : Str) (w : World) :
    (w.listen a).listeners b = w.listeners b + if a = b then 1 else 0 := by
  simp only [listeners, listen, Option.getD_some, getD_get_ws_provider, List.count_append,
    List.count_singleton, beq_iff_eq]

theorem listeners_unlisten (a b : Str) (w : World) :
    (w.unlisten a).listeners b = if a = b then 0 else w.listeners b := by
  simp only [listeners, unlisten, Option.getD_some, getD_get_ws_provider]
  split_ifs with hab
  · exact List.count_eq_zero_of_not_mem (by simp [hab])
  · rw [List.count_filter]
    simpa using Ne.symm hab

theorem isActive_iff {a : Str} {w : World} :
    w.isActive a = true ↔ ∃ d, w.db.findOne (docId a 0) = some d ∧ d.active = some true := by
  unfold isActive
  rcases w.db.findOne (docId a 0) with _ | d
  · simp
  · simp

end World

theorem Touches.refl (a : Str) (w : World) : Touches a w w := ⟨rfl, rfl, rfl, rfl, fun _ _ => rfl⟩

theorem Touches.trans {a : Str} {w w' w'' : World} (h : Touches a w w') (h' : Touches a w' w'') :
    Touches a w w'' where
  ws_provider := h'.ws_provider.trans h.ws_provider
  chain := h'.chain.trans h.chain
  heights := h'.heights.trans h.heights
  own := h'.own.trans h.own
  others b hb := (h'.others b hb).trans (h.others b hb)

theorem Touches.isActive {a : Str} {w w' : World} (h : Touches a w w') (b : Str) :
    w'.isActive b = w.isActive b := by
  by_cases hb : b = a
  · subst hb
    have hown := h.own
    unfold World.isActive
    rcases h1 : w.db.findOne (docId b 0) with _ | d <;>
      rcases h2 : w'.db.findOne (docId b 0) with _ | d' <;> rw [h1, h2] at hown <;> simp_all
  · rw [World.isActive, h.others b hb, World.isActive]

theorem Touches.listeners {a : Str} {w w' : World} (h : Touches a w w') (b : Str) :
    w'.listeners b = w.listeners b := by rw [World.listeners, h.ws_provider, World.listeners]

theorem Touches.keeps {a : Str} {w w' : World} (h : Touches a w w') (b : Str) : Keeps b w w' := by
  by_cases hb : b = a
  · subst hb
    have hown := congrArg (Option.map Prod.fst) h.own
    rwa [Option.map_map, Option.map_map] at hown
  · rw [Keeps, h.others b hb]

theorem touches_updateOne (a : Str) (b : ℕ) {u : TreeUpdate} (ht : u.treeHeight = none)
    (ha : u.active = none) (w : World) :
    Touches a w { w with db := w.db.updateOne (docId a b) u } := by
  refine ⟨rfl, rfl, rfl, ?_, fun c hc =>
    Collection.findOne_updateOne_ne fun h => hc (docId_eq h)⟩
  rw [Collection.findOne_updateOne, Option.map_map]
  refine congrArg (Option.map · _) (funext fun d => ?_)
  simp only [Function.comp]
  split_ifs
  · simp [TreeUpdate.apply, ht, ha]
  · rfl

/-! ## A call that is bound to subscribe -/

namespace CommitMgr

/-- The process subscribes to these trees in order, as long as their documents stay: the block
after which a tree's old logs are asked for is there until they are, and the conditions on a query
or on a use of the provider are those of `Server.Heeds`. -/
def Adds : List (Str × Option (Option ℕ)) → Js Unit → World → Prop
  | as, .ret _, _ => as = []
  | as, .throw _, _ => as = []
  | [], .await _ _ _, _ => False
  | (a, scan) :: as, .await l op k, w => l.isBeforeListener = true ∧
    ∀ w', (∀ x ∈ (a, scan) :: as, Keeps x.1 w w') →
      (l = .checkChainLogs_getLogs → ∃ fromBlock, scan = some fromBlock ∧
        (w'.Scannable a fromBlock →
          (op w').2 = w' ∧ Adds ((a, none) :: as) (k (op w').1) w')) ∧
      (l = .subscribeMerkleEvents → w'.Connects →
        (op w').2 = w'.listen a ∧ Adds as (k (op w').1) (op w').2) ∧
      (l ≠ .checkChainLogs_getLogs → l ≠ .subscribeMerkleEvents → scan = none ∧
        Touches a w' (op w').2 ∧ Adds ((a, scan) :: as) (k (op w').1) (op w').2)

/-- The process only reads, until it makes the tree active. -/
def Reads (a : Str) : Js Unit → Prop
  | .ret _ => True
  | .throw _ => True
  | .await l op k => l.isBeforeListener = false ∧
    (l = .track_upsert → ∃ h, ∀ w, (op w).2 = { w with
        db := w.db.upsert (docId a 0) { treeHeight := some h, active := some true } } ∧
      Adds [(a, some (some 0))] (k (op w).1) (op w).2) ∧
    (l ≠ .track_upsert → ∀ w, (op w).2 = w ∧ Reads a (k (op w).1))

/-- The process is about to make the tree inactive. -/
def Deactivates (regExp : Str → Str → Bool) (a : Str) : Js Unit → Prop
  | .ret _ => False
  | .throw _ => False
  | .await l op k =>
    (l = .untrack_deleteMany ∧ ∀ w, (k (op w).1).point = none ∧
      (op w).2 = { w with db := w.db.deleteMany fun d => regExp a d._id }) ∨
    (l = .untrack_updateOne ∧ ∀ w, (k (op w).1).point = none ∧
      (op w).2 = { w with db := w.db.upsert (docId a 0) { active := some false } })

/-- The process only reads, until it takes the listeners away. -/
def Removes (regExp : Str → Str → Bool) (a : Str) : Js Unit → Prop
  | .ret _ => True
  | .throw _ => True
  | .await l op k => l.isAfterUnsubscribe = false ∧
    (l = .unsubscribeMerkleEvents → ∀ w,
      (w.Connects → (op w).2 = w.unlisten a ∧ Deactivates regExp a (k (op w).1)) ∧
      (¬ w.Connects → (op w).2 = w ∧ (k (op w).1).point = none)) ∧
    (l ≠ .unsubscribeMerkleEvents → ∀ w, (op w).2 = w ∧ Removes regExp a (k (op w).1))

/-! ## The service's functions -/

section Calls

open Js

variable {a : Str} {scan : Option (Option ℕ)} {as : List (Str × Option (Option ℕ))} {w w' : World}

/-- The documents of all these trees stay. -/
def KeepsAll (as : List (Str × Option (Option ℕ))) (w w' : World) : Prop :=
  ∀ x ∈ as, Keeps x.1 w w'

theorem KeepsAll.trans {w'' : World} (h : KeepsAll as w w') (h' : KeepsAll as w' w'') :
    KeepsAll as w w'' := fun x hx => Keeps.trans (h x hx) (h' x hx)

theorem keepsAll_refl (as : List (Str × Option (Option ℕ))) (w : World) : KeepsAll as w w :=
  fun _ _ => rfl

/-- The process may wait while others are served. -/
theorem Adds.of_keeps {p : Js Unit} (h : Adds as p w) (hk : KeepsAll as w w') : Adds as p w' := by
  cases p with
  | ret u => exact h
  | throw e => exact h
  | await l op k =>
    rcases as with _ | ⟨⟨a, scan⟩, as⟩
    · exact h
    · exact ⟨h.1, fun w₂ hk₂ => h.2 w₂ (hk.trans hk₂)⟩

theorem adds_await {β : Type} {l : AwaitPoint} {op : World → β × World} {k : β → Js Unit}
    (hl : l.isBeforeListener = true) (h1 : l ≠ .checkChainLogs_getLogs)
    (h2 : l ≠ .subscribeMerkleEvents)
    (h : ∀ w', KeepsAll ((a, none) :: as) w w' → Touches a w' (op w').2 ∧
      (KeepsAll ((a, none) :: as) w (op w').2 →
        Adds ((a, none) :: as) (k (op w').1) (op w').2)) :
    Adds ((a, none) :: as) (.await l op k) w :=
  ⟨hl, fun w' hk => ⟨fun he => absurd he h1, fun he => absurd he h2, fun _ _ =>
    ⟨rfl, (h w' hk).1, (h w' hk).2 (KeepsAll.trans hk fun x _ => (h w' hk).1.keeps x.1)⟩⟩⟩

theorem adds_insertLeaf {leaf : Leaf} {d : TreeDoc} {K : Unit → Js Unit}
    (hd : w.db.findOne (docId a 0) = some d)
    (hb : calculateBucket (leafIndexToNodeIndex d.treeHeight leaf.leafIndex) = 0)
    (hK : ∀ w', KeepsAll ((a, none) :: as) w w' → Adds ((a, none) :: as) (K ()) w') :
    Adds ((a, none) :: as) (insertLeaf a leaf >>= K) w := by
  refine adds_await rfl (by decide) (by decide) fun w₁ hk₁ => ⟨Touches.refl a w₁, fun _ => ?_⟩
  obtain ⟨d₁, hd₁, hh₁⟩ := (hk₁ (a, none) List.mem_cons_self).doc hd
  simp only [hd₁, Js.deref]
  refine adds_await rfl (by decide) (by decide) fun w₂ hk₂ => ⟨Touches.refl a w₂, fun _ => ?_⟩
  obtain ⟨d₂, hd₂, -⟩ := (hk₂ (a, none) List.mem_cons_self).doc hd₁
  simp only [hh₁, hb, hd₂]
  refine adds_await rfl (by simp) (by simp) fun w₃ _ =>
    ⟨touches_updateOne a 0 rfl rfl w₃, fun hk₃ => ?_⟩
  refine adds_await rfl (by simp) (by simp) fun w₄ _ =>
    ⟨touches_updateOne a 0 rfl rfl w₄, fun hk₄ => ?_⟩
  exact hK _ (hk₁.trans (hk₂.trans (hk₃.trans hk₄)))

theorem adds_insertLogs {d : TreeDoc} {K : Unit → Js Unit} : ∀ (logs : List Log) {w : World},
    w.db.findOne (docId a 0) = some d →
    (∀ log ∈ logs, calculateBucket (leafIndexToNodeIndex d.treeHeight log.event.leafIndex) = 0) →
    (∀ w', KeepsAll ((a, none) :: as) w w' → Adds ((a, none) :: as) (K ()) w') →
      Adds ((a, none) :: as) (insertLogs a logs >>= K) w
  | [], w, _, _, hK => hK w (keepsAll_refl _ w)
  | log :: logs, w, hd, hb, hK => by
    rw [insertLogs, Proc.bind_assoc]
    refine adds_insertLeaf hd (hb log List.mem_cons_self) fun w' hk => ?_
    obtain ⟨d', hd', hh'⟩ := (hk (a, none) List.mem_cons_self).doc hd
    exact adds_insertLogs logs hd'
      (fun log' hlog' => hh' ▸ hb log' (List.mem_cons_of_mem _ hlog'))
      fun w'' hk' => hK w'' (hk.trans hk')

theorem adds_checkChainLogs {d : TreeDoc} {fromBlock : Option ℕ} {K : Unit → Js Unit}
    (hd : w.db.findOne (docId a 0) = some d)
    (hK : ∀ w', KeepsAll ((a, none) :: as) w w' → Adds ((a, none) :: as) (K ()) w') :
    Adds ((a, some fromBlock) :: as) (checkChainLogs a fromBlock >>= K) w := by
  refine ⟨rfl, fun w' hk => ⟨fun _ => ⟨fromBlock, rfl, fun hscan => ?_⟩, nofun,
    fun h => absurd rfl h⟩⟩
  have hk' : KeepsAll ((a, none) :: as) w w' := fun x hx => by
    rcases List.mem_cons.1 hx with rfl | hx
    · exact hk (a, some fromBlock) List.mem_cons_self
    · exact hk x (List.mem_cons_of_mem _ hx)
  obtain ⟨d', hd', -⟩ := (hk (a, some fromBlock) List.mem_cons_self).doc hd
  simp only [hscan.1]
  refine ⟨trivial, ?_⟩
  exact adds_insertLogs _ hd' (hscan.2 d' hd') fun w'' hk'' => hK w'' (hk'.trans hk'')

theorem adds_subscribe {K : Unit → Js Unit}
    (hK : ∀ w', KeepsAll as w w' → Adds as (K ()) w') :
    Adds ((a, scan) :: as) (subscribeMerkleEvents a >>= K) w := by
  refine ⟨rfl, fun w' hk => ⟨nofun, fun _ hc => ?_, fun _ h => absurd rfl h⟩⟩
  obtain ⟨ls, hls⟩ := Option.isSome_iff_exists.1 hc
  have hlisten : w'.listen a
      = { w'.get_ws_provider with ws_provider := some (ls ++ [a]) } := by
    rw [World.listen, hls, Option.getD_some]
  simp only [hls, hlisten]
  exact ⟨trivial, hK _ fun x hx => hk x (List.mem_cons_of_mem _ hx)⟩

/-- The trees that `restartSubscriptions` goes through, and where their scans start. -/
def toRestart (trees : List TreeDoc) : List (Str × Option (Option ℕ)) :=
  trees.map fun tree => (tree._id.dropLast.dropLast, some tree.latestLeaf.blockNumber)

theorem adds_restartTrees : ∀ (trees : List TreeDoc) {w : World},
    (∀ tree ∈ trees, (w.db.findOne (docId tree._id.dropLast.dropLast 0)).isSome) →
      Adds (toRestart trees) (restartTrees trees) w
  | [], _, _ => rfl
  | tree :: trees, w, hdocs => by
    obtain ⟨d, hd⟩ := Option.isSome_iff_exists.1 (hdocs tree List.mem_cons_self)
    refine adds_checkChainLogs hd fun w₁ hk₁ => adds_subscribe fun w₂ hk₂ => ?_
    refine adds_restartTrees trees fun t ht => ?_
    have hmem : (t._id.dropLast.dropLast, some t.latestLeaf.blockNumber) ∈ toRestart trees :=
      List.mem_map_of_mem ht
    obtain ⟨e, he⟩ := Option.isSome_iff_exists.1 (hdocs t (List.mem_cons_of_mem _ ht))
    obtain ⟨e₁, he₁, -⟩ := (hk₁ _ (List.mem_cons_of_mem _ hmem)).doc he
    obtain ⟨e₂, he₂, -⟩ := (hk₂ _ hmem).doc he₁
    exact Option.isSome_iff_exists.2 ⟨e₂, he₂⟩

theorem reads_await {β : Type} {l : AwaitPoint} {op : World → β × World} {k : β → Js Unit}
    (hl : l.isBeforeListener = false) (h1 : l ≠ .track_upsert)
    (h : ∀ w, (op w).2 = w ∧ Reads a (k (op w).1)) : Reads a (.await l op k) :=
  ⟨hl, fun he => absurd he h1, fun _ => h⟩

theorem reads_baseline_track (a : Str) :
    Reads a (baseline_track a >>= fun _ => .ret ()) := by
  unfold baseline_track
  simp only [Js.findOne, jsonrpc, attempt, Proc.await_bind, Proc.ret_bind]
  refine reads_await rfl (by decide) fun w₁ => ⟨rfl, ?_⟩
  simp only []
  split_ifs
  · trivial
  refine reads_await rfl (by decide) fun w₂ => ⟨by split <;> rfl, ?_⟩
  -- the client answers with a height, with an error, or not at all
  split
  · change Reads a ((if w₂.heights a = 0 then _ else _ : Js (Reply Bool)) >>= fun _ => .ret ())
    split_ifs
    · trivial
    · refine ⟨rfl, fun _ => ⟨_, fun w₃ => ⟨rfl, ?_⟩⟩, fun h => absurd rfl h⟩
      obtain ⟨d, hd⟩ := Collection.exists_upsert w₃.db (docId a 0)
        { treeHeight := some (w₂.heights a), active := some true }
      have hsub : ∀ w, Adds [(a, none)] (subscribeMerkleEvents a >>= fun _ => .ret ()) w :=
        fun w => adds_subscribe fun _ _ => rfl
      change Adds _ ((checkChainLogs a (some 0) >>= fun _ => subscribeMerkleEvents a >>= fun _ =>
        (pure ⟨none, some true⟩ : Js (Reply Bool))) >>= fun _ => .ret ()) _
      simp only [Proc.bind_assoc, Proc.pure_eq, Proc.ret_bind]
      exact adds_checkChainLogs hd fun w₄ _ => hsub w₄
  · trivial
  · trivial

theorem removes_await {regExp : Str → Str → Bool} {β : Type} {l : AwaitPoint}
    {op : World → β × World} {k : β → Js Unit} (hl : l.isAfterUnsubscribe = false)
    (h1 : l ≠ .unsubscribeMerkleEvents)
    (h : ∀ w, (op w).2 = w ∧ Removes regExp a (k (op w).1)) : Removes regExp a (.await l op k) :=
  ⟨hl, fun he => absurd he h1, fun _ => h⟩

theorem removes_baseline_untrack (regExp : Str → Str → Bool) (a : Str) (prune : Bool) :
    Removes regExp a (baseline_untrack regExp a prune >>= fun _ => .ret ()) := by
  unfold baseline_untrack
  simp only [Proc.await_bind, Proc.ret_bind]
  refine removes_await rfl (by decide) fun w₁ => ⟨rfl, ?_⟩
  by_cases hfound : (w₁.db.find fun d => regExp a d._id).length = 0
  · simp only [if_pos hfound]
    trivial
  simp only [if_neg hfound]
  refine ⟨rfl, fun _ w₂ => ⟨fun hc => ?_, fun hc => ?_⟩, fun h => absurd rfl h⟩
  · obtain ⟨ls, hls⟩ := Option.isSome_iff_exists.1 hc
    have hunlisten : w₂.unlisten a
        = { w₂.get_ws_provider with ws_provider := some (ls.filter (· ≠ a)) } := by
      rw [World.unlisten, hls, Option.getD_some]
    simp only [hls, hunlisten]
    refine ⟨trivial, ?_⟩
    cases prune with
    | true => exact .inl ⟨rfl, fun w₃ => ⟨rfl, rfl⟩⟩
    | false => exact .inr ⟨rfl, fun w₃ => ⟨rfl, rfl⟩⟩
  · have hnone := Option.not_isSome_iff_eq_none.1 hc
    simp only [hnone]
    exact ⟨World.get_ws_provider_of_not_connects hc, rfl⟩

theorem insertLeaf_within (a : Str) (leaf : Leaf) : (insertLeaf a leaf).Within (Touches a) := by
  unfold insertLeaf
  simp only [Js.findOne, Js.updateOne, Proc.await_bind, Proc.ret_bind]
  refine fun w₁ => ⟨Touches.refl a w₁, ?_⟩
  dsimp only
  rcases w₁.db.findOne (docId a 0) with _ | d₁
  · trivial
  refine fun w₂ => ⟨Touches.refl a w₂, ?_⟩
  dsimp only
  rcases w₂.db.findOne _ with _ | d₂
  · trivial
  exact fun w₃ => ⟨touches_updateOne a _ rfl rfl w₃, fun w₄ =>
    ⟨touches_updateOne a 0 rfl rfl w₄, trivial⟩⟩

/-! ## What serving a call does -/

theorem Adds.point {p : Js Unit} (h : Adds ((a, scan) :: as) p w) :
    p.point.any AwaitPoint.isBeforeListener = true := by
  cases p with
  | ret u => cases h
  | throw e => cases h
  | await l op k => exact h.1

theorem Adds.ended {p : Js Unit} (h : Adds [] p w) : p.point = none := by
  cases p with
  | ret u => rfl
  | throw e => rfl
  | await l op k => exact h.elim

theorem Adds.serve {p : Js Unit} {l : AwaitPoint} (h : Adds ((a, scan) :: as) p w)
    (hl : p.point = some l)
    (hscan : l = .checkChainLogs_getLogs → ∀ fromBlock, scan = some fromBlock →
      w.Scannable a fromBlock)
    (hsub : l = .subscribeMerkleEvents → w.Connects) :
    (Touches a w (p.serve w).2 ∧ Adds ((a, none) :: as) (p.serve w).1 (p.serve w).2) ∨
      ((p.serve w).2 = w.listen a ∧ Adds as (p.serve w).1 (p.serve w).2) := by
  cases p with
  | ret u => cases hl
  | throw e => cases hl
  | await m op k =>
    obtain rfl : m = l := Option.some.inj hl
    obtain ⟨h1, h2, h3⟩ := h.2 w (keepsAll_refl _ w)
    by_cases hlogs : m = .checkChainLogs_getLogs
    · obtain ⟨fromBlock, hfrom, hadds⟩ := h1 hlogs
      obtain ⟨hw, hrest⟩ := hadds (hscan hlogs fromBlock hfrom)
      have hw' : (Proc.serve (.await m op k) w).2 = w := hw
      rw [hw']
      exact .inl ⟨Touches.refl a w, hrest⟩
    · by_cases hsubscribe : m = .subscribeMerkleEvents
      · exact .inr (h2 hsubscribe (hsub hsubscribe))
      · obtain ⟨rfl, htouch, hrest⟩ := h3 hlogs hsubscribe
        exact .inl ⟨htouch, hrest⟩

theorem Reads.of_ended {p : Js Unit} (hp : p.point = none) : Reads a p := by
  cases p with
  | ret u => trivial
  | throw e => trivial
  | await l op k => cases hp

theorem Reads.point {p : Js Unit} (h : Reads a p) :
    p.point.any AwaitPoint.isBeforeListener = false := by
  cases p with
  | ret u => rfl
  | throw e => rfl
  | await l op k => exact h.1

theorem Reads.serve {p : Js Unit} {l : AwaitPoint} (h : Reads a p) (hl : p.point = some l)
    (w : World) :
    (l = .track_upsert ∧ ∃ h, (p.serve w).2 = { w with
        db := w.db.upsert (docId a 0) { treeHeight := some h, active := some true } } ∧
      Adds [(a, some (some 0))] (p.serve w).1 (p.serve w).2) ∨
    ((p.serve w).2 = w ∧ Reads a (p.serve w).1) := by
  cases p with
  | ret u => cases hl
  | throw e => cases hl
  | await m op k =>
    obtain rfl : m = l := Option.some.inj hl
    by_cases hup : m = .track_upsert
    · obtain ⟨h, hupsert⟩ := h.2.1 hup
      exact .inl ⟨hup, h, hupsert w⟩
    · exact .inr (h.2.2 hup w)

section Untrack

variable {regExp : Str → Str → Bool}

theorem Removes.of_ended {p : Js Unit} (hp : p.point = none) : Removes regExp a p := by
  cases p with
  | ret u => trivial
  | throw e => trivial
  | await l op k => cases hp

theorem Removes.point {p : Js Unit} (h : Removes regExp a p) :
    p.point.any AwaitPoint.isAfterUnsubscribe = false := by
  cases p with
  | ret u => rfl
  | throw e => rfl
  | await l op k => exact h.1

theorem Removes.serve {p : Js Unit} {l : AwaitPoint} (h : Removes regExp a p)
    (hl : p.point = some l) (w : World) :
    ((p.serve w).2 = w.unlisten a ∧ Deactivates regExp a (p.serve w).1) ∨
      ((p.serve w).2 = w ∧ Removes regExp a (p.serve w).1) := by
  cases p with
  | ret u => cases hl
  | throw e => cases hl
  | await m op k =>
    by_cases hun : m = .unsubscribeMerkleEvents
    · obtain ⟨hyes, hno⟩ := h.2.1 hun w
      by_cases hc : w.Connects
      · exact .inl (hyes hc)
      · exact .inr ⟨(hno hc).1, Removes.of_ended (hno hc).2⟩
    · exact .inr (h.2.2 hun w)

theorem Deactivates.point {p : Js Unit} (h : Deactivates regExp a p) :
    p.point.any AwaitPoint.isAfterUnsubscribe = true := by
  cases p with
  | ret u => exact h.elim
  | throw e => exact h.elim
  | await l op k => rcases h with ⟨rfl, -⟩ | ⟨rfl, -⟩ <;> rfl

theorem Deactivates.serve {p : Js Unit} {l : AwaitPoint} (h : Deactivates regExp a p)
    (hl : p.point = some l) (w : World) : (p.serve w).1.point = none ∧
      ((l = .untrack_deleteMany ∧
        (p.serve w).2 = { w with db := w.db.deleteMany fun d => regExp a d._id }) ∨
      (l = .untrack_updateOne ∧
        (p.serve w).2 = { w with db := w.db.upsert (docId a 0) { active := some false } })) := by
  cases p with
  | ret u => cases hl
  | throw e => cases hl
  | await m op k =>
    obtain rfl : m = l := Option.some.inj hl
    rcases h with ⟨hm, h⟩ | ⟨hm, h⟩
    · exact ⟨(h w).1, .inl ⟨hm, (h w).2⟩⟩
    · exact ⟨(h w).1, .inr ⟨hm, (h w).2⟩⟩

end Untrack

end Calls

end CommitMgr

end Baseline
