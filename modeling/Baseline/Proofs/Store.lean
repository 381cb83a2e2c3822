import Baseline.Blockchain
import Baseline.Proofs.Await
import Baseline.Proofs.Utils

/-!
# One tree's document

Everything a tree needs is in its bucket-`0` document as long as its nodes fit there. `Evolves`
says that a run changed that document and nothing else, and each function of `leaves.js` gets the
run lemma its callers use.
-/

namespace Baseline

open Await

/-! ## The collection -/

section Collection

variable {c : Collection} {id id' : Str} {u : TreeUpdate} {d : TreeDoc}

@[simp] theorem TreeUpdate.apply_id (u : TreeUpdate) (d : TreeDoc) : (u.apply d)._id = d._id := rfl

namespace Collection

theorem findOne_id (h : c.findOne id = some d) : d._id = id := by
  simpa using List.find?_some h

theorem mem_of_findOne (h : c.findOne id = some d) : d ∈ c.docs := List.mem_of_find?_eq_some h

/-- No two documents have one `_id`. -/
theorem findOne_eq_some_iff : c.findOne id = some d ↔ d ∈ c.docs ∧ d._id = id := by
  refine ⟨fun h => ⟨mem_of_findOne h, findOne_id h⟩, ?_⟩
  rintro ⟨hd, rfl⟩
  have hsome : (c.findOne d._id).isSome := List.find?_isSome.2 ⟨d, hd, by simp⟩
  obtain ⟨e, he⟩ := Option.isSome_iff_exists.1 hsome
  rw [he, List.inj_on_of_nodup_map c.nodup (mem_of_findOne he) hd (findOne_id he)]

theorem findOne_deleteMany (q : TreeDoc → Bool) (id : Str) :
    (c.deleteMany q).findOne id = (c.findOne id).filter fun d => !q d := by
  refine Option.ext fun d => ?_
  rw [findOne_eq_some_iff, Option.filter_eq_some_iff, findOne_eq_some_iff]
  simp only [deleteMany, List.mem_filter]
  tauto

theorem findOne_updateOne (id' : Str) : (c.updateOne id u).findOne id'
    = (c.findOne id').map fun d => if d._id = id then u.apply d else d := by
  have hid : ∀ d : TreeDoc, (if d._id = id then u.apply d else d)._id = d._id := by
    intro d
    split_ifs <;> rfl
  simp only [findOne, updateOne, List.find?_map, Function.comp_def, hid]

theorem findOne_updateOne_self (h : c.findOne id = some d) :
    (c.updateOne id u).findOne id = some (u.apply d) := by
  rw [findOne_updateOne, h, Option.map_some, if_pos (findOne_id h)]

theorem findOne_updateOne_ne (h : id' ≠ id) :
    (c.updateOne id u).findOne id' = c.findOne id' := by
  rw [findOne_updateOne]
  rcases hf : c.findOne id' with _ | d
  · rfl
  · rw [Option.map_some, if_neg (by rw [findOne_id hf]; exact h)]

theorem exists_of_findOne (h : c.findOne id = some d) : ∃ d ∈ c.docs, d._id = id :=
  ⟨d, mem_of_findOne h, findOne_id h⟩

theorem not_exists_of_findOne (h : c.findOne id = none) : ¬ ∃ d ∈ c.docs, d._id = id := by
  rintro ⟨d, hd, hid⟩
  exact absurd (by simpa using hid) (List.find?_eq_none.1 h d hd)

theorem findOne_upsert_some (h : c.findOne id = some d) :
    (c.upsert id u).findOne id = some (u.apply d) := by
  rw [upsert, dif_pos (exists_of_findOne h), findOne_updateOne_self h]

theorem findOne_upsert_none (h : c.findOne id = none) :
    (c.upsert id u).findOne id = some (u.apply (TreeDoc.default id)) := by
  rw [upsert, dif_neg (not_exists_of_findOne h), findOne, List.find?_append]
  rw [findOne] at h
  rw [h]
  simp [TreeDoc.default]

theorem exists_upsert (c : Collection) (id : Str) (u : TreeUpdate) :
    ∃ d, (c.upsert id u).findOne id = some (u.apply d) := by
  rcases h : c.findOne id with _ | d
  · exact ⟨_, findOne_upsert_none h⟩
  · exact ⟨_, findOne_upsert_some h⟩

theorem findOne_upsert_ne (h : id' ≠ id) : (c.upsert id u).findOne id' = c.findOne id' := by
  unfold upsert
  split_ifs
  · exact findOne_updateOne_ne h
  · rw [findOne, List.find?_append, findOne]
    simp [TreeDoc.default, h.symm]

end Collection

end Collection

theorem docId_inj {a : Str} {b b' : ℕ} (h : docId a b = docId a b') : b = b' := by
  have h1 : Nat.toDigits 10 b = Nat.toDigits 10 b' := by
    simpa [docId] using h
  have h2 := congrArg (Nat.ofDigitChars 10 · 0) h1
  simpa only [Nat.ofDigitChars_ten_toDigits] using h2

/-- No number's text has an underscore. -/
theorem docId_eq {a a' : Str} {b b' : ℕ} (h : docId a b = docId a' b') : a = a' := by
  have hno : ∀ {s : Str} {n m : ℕ}, Nat.toDigits 10 n ≠ s ++ '_' :: Nat.toDigits 10 m := by
    intro s n m heq
    have hmem : '_' ∈ s ++ '_' :: Nat.toDigits 10 m := by simp
    rw [← heq] at hmem
    exact Nat.underscore_not_in_toDigits hmem
  unfold docId at h
  rcases List.append_eq_append_iff.1 h with ⟨s, ha, hs⟩ | ⟨s, ha, hs⟩
  · rcases s with _ | ⟨c, s⟩
    · simpa using ha.symm
    · obtain ⟨-, hs⟩ := List.cons.inj hs
      exact absurd hs hno
  · rcases s with _ | ⟨c, s⟩
    · simpa using ha
    · obtain ⟨-, hs⟩ := List.cons.inj hs
      exact absurd hs hno

/-! ## What a run changes -/

/-- From `w` to `w'` only the bucket-`0` document of a tree changed, to `d`. -/
structure Evolves (contractAddress : Str) (d : TreeDoc) (w w' : World) : Prop where
  doc : w'.db.findOne (docId contractAddress 0) = some d
  others : ∀ id, id ≠ docId contractAddress 0 → w'.db.findOne id = w.db.findOne id
  chain : w'.chain = w.chain
  heights : w'.heights = w.heights
  rpc : w'.rpc = w.rpc
  wsUp : w'.wsUp = w.wsUp
  ws_provider : w'.ws_provider = w.ws_provider

namespace Evolves

variable {a : Str} {d d₁ d₂ : TreeDoc} {w w₁ w₂ : World}

theorem refl (h : w.db.findOne (docId a 0) = some d) : Evolves a d w w :=
  ⟨h, fun _ _ => rfl, rfl, rfl, rfl, rfl, rfl⟩

theorem trans (h₁ : Evolves a d₁ w w₁) (h₂ : Evolves a d₂ w₁ w₂) : Evolves a d₂ w w₂ where
  doc := h₂.doc
  others id hid := (h₂.others id hid).trans (h₁.others id hid)
  chain := h₂.chain.trans h₁.chain
  heights := h₂.heights.trans h₁.heights
  rpc := h₂.rpc.trans h₁.rpc
  wsUp := h₂.wsUp.trans h₁.wsUp
  ws_provider := h₂.ws_provider.trans h₁.ws_provider

theorem updateOne (h : w.db.findOne (docId a 0) = some d) (u : TreeUpdate) :
    Evolves a (u.apply d) w { w with db := w.db.updateOne (docId a 0) u } where
  doc := Collection.findOne_updateOne_self h
  others _ hid := Collection.findOne_updateOne_ne hid
  chain := rfl
  heights := rfl
  rpc := rfl
  wsUp := rfl
  ws_provider := rfl

end Evolves

/-- The world after an update of one document. -/
abbrev World.updated (w : World) (id : Str) (u : TreeUpdate) : World :=
  { w with db := w.db.updateOne id u }

namespace CommitMgr

/-! ## The document's parts -/

section Parts

variable {a : Str} {w : World} {d : TreeDoc} (hd : w.db.findOne (docId a 0) = some d)

include hd

theorem nodesAt_eq : nodesAt a w = some d.nodes := by rw [nodesAt, hd, Option.map_some]

theorem entryAt_eq (j : ℕ) : entryAt a w j = entry d.nodes j := by
  rw [entryAt, hd, Option.bind_some, entry]

theorem latestLeafAt_eq : latestLeafAt a w = some d.latestLeaf := by
  rw [latestLeafAt, hd, Option.map_some]

theorem findOne_updated (u : TreeUpdate) :
    (w.updated (docId a 0) u).db.findOne (docId a 0) = some (u.apply d) :=
  Collection.findOne_updateOne_self hd

end Parts

/-! ## The awaits -/

@[simp] theorem deref_some {α : Type} (x : α) : Js.deref (some x) = .ret x := rfl

@[simp] theorem deref_none {α : Type} : Js.deref (none : Option α) = .throw .typeError := rfl

/-- The usual first line of a function: the document, and a type error where there is none. -/
theorem run_findOne_deref {β : Type} (l : AwaitPoint) (id : Str) (f : TreeDoc → Js β) (w : World) :
    (Js.findOne l id >>= fun d => Js.deref d >>= f).run w
      = match w.db.findOne id with
        | some d => (f d).run w
        | none => (.error .typeError, w) := by
  simp only [Js.findOne, Proc.await_bind, Proc.ret_bind, Proc.run_await]
  rcases w.db.findOne id with _ | d <;> rfl

theorem run_updateOne {β : Type} (l : AwaitPoint) (id : Str) (u : TreeUpdate) (f : Unit → Js β)
    (w : World) : (Js.updateOne l id u >>= f).run w
      = (f ()).run { w with db := w.db.updateOne id u } := rfl

theorem run_updateOne' (l : AwaitPoint) (id : Str) (u : TreeUpdate) (w : World) :
    (Js.updateOne l id u).run w = (.ok (), { w with db := w.db.updateOne id u }) := rfl

/-! ## `leaves.js` -/

section Leaves

variable {a : Str} {d : TreeDoc} {w : World}

/-- The document with a leaf added. -/
def withLeaf (d : TreeDoc) (leaf : Leaf) : TreeDoc :=
  { d with
    nodes := setEntry d.nodes (leafIndexToNodeIndex d.treeHeight leaf.leafIndex) leaf.toNode
    latestLeaf := ⟨some leaf.blockNumber, some leaf.leafIndex⟩ }

theorem insertLeaf_run (hd : w.db.findOne (docId a 0) = some d) (leaf : Leaf)
    (hb : leafIndexToNodeIndex d.treeHeight leaf.leafIndex < BUCKET_SIZE) :
    ∃ w', (insertLeaf a leaf).run w = (.ok (), w') ∧ Evolves a (withLeaf d leaf) w w' := by
  have h1 := Evolves.updateOne hd
    { nodes := some (setEntry d.nodes (leafIndexToNodeIndex d.treeHeight leaf.leafIndex)
        leaf.toNode) }
  have h2 := Evolves.updateOne h1.doc
    { latestLeaf := some ⟨some leaf.blockNumber, some leaf.leafIndex⟩ }
  refine ⟨_, ?_, h1.trans h2⟩
  unfold insertLeaf
  rw [run_findOne_deref, hd]
  simp only [calculateBucket_eq hb]
  rw [run_findOne_deref, hd]
  rfl

/-- Past the first bucket there is no document to store a leaf in. -/
theorem insertLeaf_run_none (hd : w.db.findOne (docId a 0) = some d) {leaf : Leaf}
    (hb : w.db.findOne (docId a
      (calculateBucket (leafIndexToNodeIndex d.treeHeight leaf.leafIndex))) = none) :
    (insertLeaf a leaf).run w = (.error .typeError, w) := by
  unfold insertLeaf
  rw [run_findOne_deref, hd]
  simp only []
  rw [run_findOne_deref, hb]

theorem getLeafByLeafIndex_run (hd : w.db.findOne (docId a 0) = some d) {i : ℕ}
    (hb : leafIndexToNodeIndex d.treeHeight i < BUCKET_SIZE) :
    (getLeafByLeafIndex a i).run w
      = (.ok ((d.nodes.filterMap fun node =>
          node.filter fun node => node.leafIndex = some i).head?.getD ⟨none, none, none, none⟩),
        w) := by
  unfold getLeafByLeafIndex
  rw [run_findOne_deref, hd]
  simp only [calculateBucket_eq hb]
  rw [run_findOne_deref, hd]
  rfl

end Leaves

end CommitMgr

end Baseline
