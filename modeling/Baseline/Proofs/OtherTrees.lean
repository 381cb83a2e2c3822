import Baseline.History
import Baseline.Proofs.Subscribing

/-!
# Other trees' calls

A call for one contract writes to documents of that contract, so whatever it does, a tree of another
contract keeps its document (`Touches`); an untrack's regular expression may delete it (`Spares`).
-/

namespace Baseline

open Await

namespace CommitMgr

section Within

variable {α β : Type} {a : Str} {l : AwaitPoint}

theorem findOne_within {id : Str} {f : Option TreeDoc → Js β}
    (hf : ∀ d, (f d).Within (Touches a)) : (Js.findOne l id >>= f).Within (Touches a) :=
  fun w => ⟨Touches.refl a w, hf _⟩

theorem deref_within {R : World → World → Prop} {x : Option α} {f : α → Js β}
    (hf : ∀ y, (f y).Within R) : (Js.deref x >>= f).Within R := by
  cases x with
  | none => trivial
  | some y => exact hf y

theorem storeNode_within (a : Str) (j : ℕ) (hash : Str) :
    (storeNode a j hash).Within (Touches a) :=
  findOne_within fun _ => deref_within fun _ w => ⟨touches_updateOne a _ rfl rfl w, trivial⟩

variable {sha256 : List UInt8 → Bytes 32}

theorem hashLevels_within (a : Str) (frontier : List (Option Str)) (stored : Cursor → Str) :
    ∀ (n level : ℕ) (c : Cursor),
      (hashLevels sha256 a frontier stored n level c).Within (Touches a)
  | 0, _, _ => trivial
  | n + 1, level, _ => deref_within fun c => (storeNode_within a c.nodeIndex (stored c)).bind
    fun _ => hashLevels_within a frontier stored n (level + 1) c

theorem hashLeaves_within (a : Str) (h : ℕ) : ∀ (leafValues : List (Option Str)) (leafIndex : ℕ)
    (frontier : List (Option Str)) (last : Option (ℕ × Cursor)),
      (hashLeaves sha256 a h leafValues leafIndex frontier last).Within (Touches a)
  | [], _, _, _ => trivial
  | leafValue :: leafValues, leafIndex, frontier, _ => by
    rw [hashLeaves]
    refine deref_within fun nodeValueFull => ?_
    simp only []
    split
    · trivial
    · exact hashLeaves_within a h leafValues _ _ _
    · exact (hashLevels_within a _ _ _ _ _).bind fun _ => hashLeaves_within a h leafValues _ _ _

theorem updateNodes_within (a : Str) (frontier leafValues : List (Option Str)) (n : ℕ) :
    (updateNodes sha256 a frontier leafValues n).Within (Touches a) := by
  refine findOne_within fun d => deref_within fun d => ?_
  unfold updateNodesFrom
  simp only []
  refine (hashLeaves_within a _ _ _ _ _).bind fun last => ?_
  rcases last.2 with _ | ⟨slot, c⟩
  · exact fun w => ⟨touches_updateOne a 0 rfl rfl w, trivial⟩
  · refine Proc.Within.bind (fun c => ?_) (hashLevels_within a _ _ _ _ _)
    exact fun w => ⟨touches_updateOne a 0 rfl rfl w, trivial⟩

theorem leafIndexRangeLoop_within (a : Str) (h hi : ℕ) : ∀ (fuel lo : ℕ) (leaves : List Node),
    (leafIndexRangeLoop a h hi fuel lo leaves).Within (Touches a)
  | 0, _, _ => trivial
  | fuel + 1, lo, leaves => by
    rw [leafIndexRangeLoop]
    split_ifs
    · exact findOne_within fun _ => deref_within fun _ => leafIndexRangeLoop_within a h hi fuel _ _
    · trivial

theorem updateTree_within (a : Str) : (updateTree sha256 a).Within (Touches a) := by
  refine findOne_within fun _ => deref_within fun d => ?_
  simp only []
  split_ifs
  · trivial
  · refine Proc.Within.bind (fun _ => updateNodes_within a _ _ _) ?_
    exact findOne_within fun _ => deref_within fun _ => leafIndexRangeLoop_within a _ _ _ _ _
  · trivial

theorem insertLogs_within (a : Str) : ∀ logs : List Log, (insertLogs a logs).Within (Touches a)
  | [] => trivial
  | log :: logs => (insertLeaf_within a log.leaf).bind fun _ => insertLogs_within a logs

theorem checkChainLogs_within (a : Str) (fromBlock : Option ℕ) :
    (checkChainLogs a fromBlock).Within (Touches a) := by
  unfold checkChainLogs jsonrpc attempt
  intro w
  dsimp only
  rcases w.rpc with _ | e | _
  · exact ⟨Touches.refl a w, insertLogs_within a _⟩
  · exact ⟨Touches.refl a w, trivial⟩
  · exact ⟨Touches.refl a w, trivial⟩

end Within

/-- A tree's document stays or is deleted, and no listener is added for it. -/
structure Spares (a : Str) (w w' : World) : Prop where
  doc : w'.db.findOne (docId a 0) = w.db.findOne (docId a 0) ∨ w'.db.findOne (docId a 0) = none
  chain : w'.chain = w.chain
  heights : w'.heights = w.heights
  listening : a ∈ w'.ws_provider.getD [] → a ∈ w.ws_provider.getD []

section Spares

variable {a x : Str} {w w' w'' : World}

theorem Spares.refl (a : Str) (w : World) : Spares a w w := ⟨.inl rfl, rfl, rfl, id⟩

theorem Spares.trans (h : Spares a w w') (h' : Spares a w' w'') : Spares a w w'' where
  doc := by
    rcases h'.doc with hsame | hgone
    · rw [hsame]
      exact h.doc
    · exact .inr hgone
  chain := h'.chain.trans h.chain
  heights := h'.heights.trans h.heights
  listening hmem := h.listening (h'.listening hmem)

theorem spares_of_touches (hx : a ≠ x) (h : Touches x w w') : Spares a w w' where
  doc := .inl (h.others a hx)
  chain := h.chain
  heights := h.heights
  listening := by
    rw [h.ws_provider]
    exact id

theorem spares_get_ws_provider (a : Str) (w : World) : Spares a w w.get_ws_provider :=
  ⟨.inl rfl, rfl, rfl, by rw [World.getD_get_ws_provider]; exact id⟩

theorem spares_upsert (hx : a ≠ x) (u : TreeUpdate) (w : World) :
    Spares a w { w with db := w.db.upsert (docId x 0) u } :=
  ⟨.inl (Collection.findOne_upsert_ne fun h => hx (docId_eq h)), rfl, rfl, id⟩

theorem spares_deleteMany (a : Str) (q : TreeDoc → Bool) (w : World) :
    Spares a w { w with db := w.db.deleteMany q } := by
  refine ⟨?_, rfl, rfl, id⟩
  rw [Collection.findOne_deleteMany]
  rcases w.db.findOne (docId a 0) with _ | d
  · exact .inl rfl
  · rw [Option.filter_some]
    split_ifs
    · exact .inl rfl
    · exact .inr rfl

theorem subscribeMerkleEvents_within (hx : a ≠ x) :
    (subscribeMerkleEvents x).Within (Spares a) := by
  refine fun w => ⟨?_, ?_⟩
  · have hget := World.getD_get_ws_provider w
    dsimp only
    split
    · rename_i ls hls
      refine ⟨.inl rfl, rfl, rfl, fun hmem => ?_⟩
      rw [← hget, hls]
      simpa [hx] using hmem
    · exact spares_get_ws_provider a w
  · dsimp only
    split <;> trivial

theorem unsubscribeMerkleEvents_within (a x : Str) :
    (unsubscribeMerkleEvents x).Within (Spares a) := by
  refine fun w => ⟨?_, ?_⟩
  · have hget := World.getD_get_ws_provider w
    dsimp only
    split
    · rename_i ls hls
      refine ⟨.inl rfl, rfl, rfl, fun hmem => ?_⟩
      rw [← hget, hls]
      exact List.mem_of_mem_filter hmem
    · exact spares_get_ws_provider a w
  · dsimp only
    split <;> trivial

theorem baseline_track_within (hx : a ≠ x) : (baseline_track x).Within (Spares a) := by
  unfold baseline_track
  simp only [Js.findOne, jsonrpc, attempt, Proc.await_bind, Proc.ret_bind]
  refine fun w₁ => ⟨Spares.refl a w₁, ?_⟩
  dsimp only
  split_ifs
  · trivial
  intro w₂
  dsimp only
  rcases w₂.rpc with _ | e | _
  · refine ⟨Spares.refl a w₂, ?_⟩
    change Proc.Within (Spares a) (if w₂.heights x = 0 then _ else _)
    split_ifs
    · trivial
    · refine fun w₃ => ⟨spares_upsert hx _ w₃, ?_⟩
      refine Proc.Within.bind (fun _ => ?_)
        ((checkChainLogs_within x _).mono fun _ _ => spares_of_touches hx)
      refine Proc.Within.bind (fun _ => ?_) (subscribeMerkleEvents_within hx)
      trivial
  · exact ⟨Spares.refl a w₂, trivial⟩
  · exact ⟨Spares.refl a w₂, trivial⟩

theorem baseline_untrack_within (regExp : Str → Str → Bool) (hx : a ≠ x) (prune : Bool) :
    (baseline_untrack regExp x prune).Within (Spares a) := by
  unfold baseline_untrack
  refine fun w₁ => ⟨Spares.refl a w₁, ?_⟩
  change Proc.Within (Spares a) (if _ then _ else _)
  split_ifs
  · trivial
  · refine Proc.Within.bind (fun _ => ?_) (unsubscribeMerkleEvents_within a x)
    exact fun w₂ => ⟨spares_deleteMany a _ w₂, trivial⟩
  · refine Proc.Within.bind (fun _ => ?_) (unsubscribeMerkleEvents_within a x)
    exact fun w₂ => ⟨spares_upsert hx _ w₂, trivial⟩

end Spares

end CommitMgr

end Baseline
