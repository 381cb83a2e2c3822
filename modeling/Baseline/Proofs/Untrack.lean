import Baseline.Proofs.Subscribing

/-!
# What `baseline_untrack` touches

The request deletes what its pattern matches, and sets the flag of one document by its `_id`,
which it creates if it is not there (`untrack_run`). So it keeps to its tree exactly if, to delete,
the pattern matches the tree's documents and no other, and, not to delete, the tree's first
document is there or the pattern matches nothing (`keepsToTree_iff`).
-/

namespace Baseline

open Await

namespace CommitMgr

variable {contractAddress : Str} {w : World}

/-! ## The run of the request -/

theorem unsubscribe_run (contractAddress : Str) (w : World) :
    (unsubscribeMerkleEvents contractAddress).run w
      = if w.Connects then (.ok (), w.unlisten contractAddress) else (.error .typeError, w) := by
  by_cases hc : w.Connects
  · obtain ⟨listeners, hp⟩ := Option.isSome_iff_exists.1 hc
    simp only [unsubscribeMerkleEvents, attempt, Proc.run_await, hp, if_pos hc, World.unlisten,
      Option.getD_some]
    rfl
  · have hnone := Option.not_isSome_iff_eq_none.1 hc
    simp only [unsubscribeMerkleEvents, attempt, Proc.run_await, hnone, if_neg hc]
    rw [World.get_ws_provider_of_not_connects hc]
    rfl

/-- What the database is left as once the listeners are gone. -/
def untracked (regExp : Str → Bool) (contractAddress : Str) (prune : Bool) (db : Collection) :
    Collection :=
  if prune then db.deleteMany fun d => regExp d._id
  else db.upsert (docId contractAddress 0) { active := some false }

/-- The reply where the pattern matches nothing. -/
def notFound (contractAddress : Str) : Reply Bool :=
  ⟨some (internalError ("Merkle Tree not found in db: ".toList ++ contractAddress)), none⟩

theorem untrack_run (regExp : Str → Bool) (contractAddress : Str) (prune : Bool) (w : World) :
    (baseline_untrack (fun _ => regExp) contractAddress prune).run w
      = if ∀ d ∈ w.db.docs, regExp d._id = false then
          (.ok (notFound contractAddress), w)
        else if w.Connects then
          (.ok ⟨none, some true⟩, { w.unlisten contractAddress with
            db := untracked regExp contractAddress prune w.db })
        else (.error .typeError, w) := by
  have hfound : (w.db.find fun d => regExp d._id).length = 0
      ↔ ∀ d ∈ w.db.docs, regExp d._id = false := by
    simp [Collection.find]
  unfold baseline_untrack
  simp only [Proc.await_bind, Proc.ret_bind, Proc.run_await]
  by_cases hnone : ∀ d ∈ w.db.docs, regExp d._id = false
  · rw [if_pos hnone, if_pos (hfound.2 hnone)]
    rfl
  rw [if_neg hnone, if_neg fun h => hnone (hfound.1 h), Proc.run_bind, unsubscribe_run]
  by_cases hc : w.Connects
  · simp only [if_pos hc, untracked]
    cases prune <;> rfl
  · simp only [if_neg hc]

/-! ## The tree's documents -/

/-- A document of the tree: the address, an underscore and a bucket number. -/
def OfTree (contractAddress : Str) (d : TreeDoc) : Prop := ∃ n, d._id = docId contractAddress n

/-- `done` is handed an error. -/
def ReportsError (r : Except JsError (Reply Bool)) : Prop :=
  ∃ reply, r = .ok reply ∧ reply.error ≠ none

/-- A request to delete takes away the tree's documents, and reports an error if there is none. -/
structure Prunes (contractAddress : Str) (w : World) (r : Except JsError (Reply Bool) × World) :
    Prop where
  docs : ∀ d, d ∈ r.2.db.docs ↔ d ∈ w.db.docs ∧ ¬ OfTree contractAddress d
  absent : (∀ d ∈ w.db.docs, ¬ OfTree contractAddress d) → ReportsError r.1

/-- Any other request leaves everything but the flag of the tree's first document, and reports an
error if there is none. -/
structure SetsFlag (contractAddress : Str) (w : World)
    (r : Except JsError (Reply Bool) × World) : Prop where
  docs : ∃ active, r.2.db.docs = w.db.docs.map fun d =>
    if d._id = docId contractAddress 0 then { d with active } else d
  absent : (∀ d ∈ w.db.docs, d._id ≠ docId contractAddress 0) → ReportsError r.1

/-- The request touches its own tree only. -/
def KeepsToTree (contractAddress : Str) (prune : Bool) (w : World)
    (r : Except JsError (Reply Bool) × World) : Prop :=
  if prune then Prunes contractAddress w r else SetsFlag contractAddress w r

/-- The pattern matches the tree's documents, and the listeners can be taken away; or, if nothing is
to be deleted, the first document is there, or nothing matches. -/
def Fits (newRegExp : Str → Option (Str → Bool)) (contractAddress : Str) (prune : Bool)
    (w : World) : Prop :=
  if prune then
    ∃ regExp, newRegExp contractAddress = some regExp ∧
      (∀ d ∈ w.db.docs, regExp d._id = true ↔ OfTree contractAddress d) ∧
      ((∃ d ∈ w.db.docs, OfTree contractAddress d) → w.Connects)
  else
    (∃ d ∈ w.db.docs, d._id = docId contractAddress 0) ∨
      ∃ regExp, newRegExp contractAddress = some regExp ∧
        ∀ d ∈ w.db.docs, regExp d._id = false

section Outcomes

variable {r : Except JsError (Reply Bool) × World}

theorem prunes_unchanged (hdb : r.2.db = w.db) : Prunes contractAddress w r ↔
    (∀ d ∈ w.db.docs, ¬ OfTree contractAddress d) ∧ ReportsError r.1 := by
  constructor
  · rintro ⟨hdocs, habsent⟩
    rw [hdb] at hdocs
    have hnone : ∀ d ∈ w.db.docs, ¬ OfTree contractAddress d := fun d hd => ((hdocs d).1 hd).2
    exact ⟨hnone, habsent hnone⟩
  · rintro ⟨hnone, herror⟩
    refine ⟨fun d => ?_, fun _ => herror⟩
    rw [hdb]
    exact ⟨fun hd => ⟨hd, hnone d hd⟩, fun hd => hd.1⟩

theorem setsFlag_unchanged (hdb : r.2.db = w.db) : SetsFlag contractAddress w r ↔
    (∃ d ∈ w.db.docs, d._id = docId contractAddress 0) ∨ ReportsError r.1 := by
  constructor
  · rintro ⟨-, habsent⟩
    by_cases hdoc : ∃ d ∈ w.db.docs, d._id = docId contractAddress 0
    · exact .inl hdoc
    · exact .inr (habsent fun d hd hid => hdoc ⟨d, hd, hid⟩)
  · intro h
    refine ⟨⟨(w.db.findOne (docId contractAddress 0)).bind TreeDoc.active, ?_⟩, fun hnone => ?_⟩
    · rw [hdb]
      refine (List.map_id _).symm.trans (List.map_congr_left fun d hd => ?_)
      split_ifs with hid
      · rw [Collection.findOne_eq_some_iff.2 ⟨hd, hid⟩]
        rfl
      · rfl
    · rcases h with ⟨d, hd, hid⟩ | herror
      · exact absurd hid (hnone d hd)
      · exact herror

/-- What is left when the pattern's documents are gone. -/
theorem prunes_deleteMany {regExp : Str → Bool}
    (hdb : r.2.db = w.db.deleteMany fun d => regExp d._id)
    (hsome : ¬ ∀ d ∈ w.db.docs, regExp d._id = false) : Prunes contractAddress w r ↔
      ∀ d ∈ w.db.docs, regExp d._id = true ↔ OfTree contractAddress d := by
  have hleft : ∀ d, d ∈ r.2.db.docs ↔ d ∈ w.db.docs ∧ ¬ regExp d._id = true := by
    simp [hdb, Collection.deleteMany]
  constructor
  · intro h d hd
    have hiff := (hleft d).symm.trans (h.docs d)
    simp only [hd, true_and] at hiff
    exact not_iff_not.1 hiff
  · intro h
    refine ⟨fun d => (hleft d).trans (and_congr_right fun hd => not_congr (h d hd)),
      fun hnone => ?_⟩
    exact absurd (fun d hd => Bool.eq_false_iff.2 fun hre => hnone d hd ((h d hd).1 hre)) hsome

theorem setsFlag_upsert
    (hdb : r.2.db = w.db.upsert (docId contractAddress 0) { active := some false }) :
    SetsFlag contractAddress w r ↔ ∃ d ∈ w.db.docs, d._id = docId contractAddress 0 := by
  unfold Collection.upsert at hdb
  split_ifs at hdb with hdoc
  · refine iff_of_true ⟨⟨some false, ?_⟩, fun hnone => ?_⟩ hdoc
    · rw [hdb]
      rfl
    · obtain ⟨d, hd, hid⟩ := hdoc
      exact absurd hid (hnone d hd)
  · refine iff_of_false ?_ hdoc
    rintro ⟨⟨active, hdocs⟩, -⟩
    -- one document more than there were
    have hlen := congrArg List.length hdocs
    simp [hdb] at hlen

end Outcomes

theorem reportsError_error (e : JsError) : ¬ ReportsError (.error e) := by
  rintro ⟨reply, ⟨⟩, -⟩

theorem reportsError_notFound (contractAddress : Str) :
    ReportsError (.ok (notFound contractAddress)) := ⟨_, rfl, Option.some_ne_none _⟩

theorem prunes_iff (newRegExp : Str → Option (Str → Bool)) (contractAddress : Str) (w : World) :
    Prunes contractAddress w ((baseline_untrackWith newRegExp contractAddress true).run w) ↔
      Fits newRegExp contractAddress true w := by
  unfold baseline_untrackWith Fits
  rw [if_pos rfl]
  cases newRegExp contractAddress with
  | none => simp [prunes_unchanged, reportsError_error]
  | some regExp =>
    simp only [untrack_run, Option.some.injEq, exists_eq_left']
    by_cases hnone : ∀ d ∈ w.db.docs, regExp d._id = false
    · -- nothing matches, so an error is reported
      simp only [if_pos hnone, prunes_unchanged, reportsError_notFound, and_true]
      constructor
      · intro h
        refine ⟨fun d hd => ?_, fun ⟨d, hd, ho⟩ => absurd ho (h d hd)⟩
        rw [hnone d hd]
        exact iff_of_false Bool.false_ne_true (h d hd)
      · rintro ⟨h, -⟩ d hd ho
        rw [← h d hd, hnone d hd] at ho
        cases ho
    rw [if_neg hnone]
    by_cases hc : w.Connects
    · rw [if_pos hc]
      simp only [hc, implies_true, and_true]
      exact prunes_deleteMany rfl hnone
    · -- the request throws before it changes anything
      rw [if_neg hc]
      simp only [prunes_unchanged, reportsError_error, and_false, hc, imp_false, false_iff]
      rintro ⟨h, hno⟩
      exact hnone fun d hd => Bool.eq_false_iff.2 fun hre => hno ⟨d, hd, (h d hd).1 hre⟩

theorem setsFlag_iff (newRegExp : Str → Option (Str → Bool)) (contractAddress : Str)
    (w : World) :
    SetsFlag contractAddress w ((baseline_untrackWith newRegExp contractAddress false).run w) ↔
      Fits newRegExp contractAddress false w := by
  unfold baseline_untrackWith Fits
  rw [if_neg Bool.false_ne_true]
  cases newRegExp contractAddress with
  | none => simp [setsFlag_unchanged, reportsError_error]
  | some regExp =>
    simp only [untrack_run, Option.some.injEq, exists_eq_left']
    by_cases hnone : ∀ d ∈ w.db.docs, regExp d._id = false
    · simp only [if_pos hnone, setsFlag_unchanged, reportsError_notFound, or_true, true_iff]
      exact .inr hnone
    rw [if_neg hnone]
    simp only [hnone, or_false]
    by_cases hc : w.Connects
    · rw [if_pos hc]
      exact setsFlag_upsert rfl
    · rw [if_neg hc]
      simp only [setsFlag_unchanged, reportsError_error, or_false]

theorem keepsToTree_iff (newRegExp : Str → Option (Str → Bool)) (contractAddress : Str)
    (prune : Bool) (w : World) :
    KeepsToTree contractAddress prune w
        ((baseline_untrackWith newRegExp contractAddress prune).run w) ↔
      Fits newRegExp contractAddress prune w := by
  cases prune with
  | true => exact prunes_iff newRegExp contractAddress w
  | false => exact setsFlag_iff newRegExp contractAddress w

/-- A pattern without special characters matches its text anywhere. -/
def plainRegExp (contractAddress : Str) : Option (Str → Bool) := some (matchesText contractAddress)

/-- The beginning of every address: to prune it deletes another contract's document, and otherwise
it gets a document of its own. -/
theorem untrack_prefix :
    (let w := trackedWorld (contractOf '1') 4
     ¬ KeepsToTree ['0', 'x'] true w ((baseline_untrackWith plainRegExp ['0', 'x'] true).run w)) ∧
    (let w := trackedWorld (contractOf '1') 4
     ¬ KeepsToTree ['0', 'x'] false w
      ((baseline_untrackWith plainRegExp ['0', 'x'] false).run w)) := by
  refine ⟨fun h => ?_, fun h => ?_⟩
  · have hother : ¬ OfTree ['0', 'x'] (trackedDoc (contractOf '1') 4) := by
      rintro ⟨n, hn⟩
      simp [trackedDoc, TreeUpdate.apply, TreeDoc.default, docId, contractOf] at hn
    exact absurd ((h.docs _).2 ⟨List.mem_singleton_self _, hother⟩) (by decide)
  · obtain ⟨⟨active, hdocs⟩, -⟩ := h
    have hlen := congrArg List.length hdocs
    rw [List.length_map] at hlen
    exact absurd hlen (by decide)

end CommitMgr

end Baseline
