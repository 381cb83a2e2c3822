import Baseline.Proofs.Leaves

/-!
# The inner nodes

`updateNodes` writes the nodes that its leaves complete and the path of the last one, each with
the value it has in the tree over all leaves so far (`entry_written`), so after it every node with
a leaf below is stored, and no other (`Settled.hashed`). A full tree is the exception: its root is
among the completed nodes, and these are stored cut to 27 bytes.
-/

namespace Baseline

open Await HashTree

namespace CommitMgr

/-! ## Stored nodes -/

/-- A node stored with its hash alone. -/
def hashNode (hash : Str) : Node := ⟨none, none, none, some hash⟩

def written (nodes : List (Option Node)) (ws : List (ℕ × Str)) : List (Option Node) :=
  ws.foldl (fun nodes w => setEntry nodes w.1 (hashNode w.2)) nodes

theorem storeNode_run_bucket {a : Str} {w : World} {j : ℕ} {segment : TreeDoc}
    (hw : w.db.findOne (docId a (calculateBucket j)) = some segment) (hash : Str) :
    (storeNode a j hash).run w = (.ok (), w.updated (docId a (calculateBucket j))
      { nodes := some (setEntry segment.nodes (j % BUCKET_SIZE) (hashNode hash)) }) := by
  unfold storeNode
  simp only []
  rw [run_findOne_deref, hw]
  rfl

section Written

variable {h : ℕ} {val : ℕ → ℕ → Str}

theorem written_append (nodes : List (Option Node)) (us vs : List (ℕ × Str)) :
    written nodes (us ++ vs) = written (written nodes us) vs := List.foldl_append

theorem entry_written : ∀ (L : List (ℕ × ℕ)) (nodes : List (Option Node)) {l p : ℕ},
    (∀ n ∈ L, n.1 ≤ h ∧ n.2 < 2 ^ (h - n.1)) → l ≤ h → p < 2 ^ (h - l) →
      entry (written nodes (writes h val L)) (index h l p)
        = if (l, p) ∈ L then some (hashNode (val l p)) else entry nodes (index h l p)
  | [], nodes, l, p, _, _, _ => by simp [written, writes]
  | (l', p') :: L, nodes, l, p, hL, hl, hp => by
    obtain ⟨hl', hp'⟩ := hL (l', p') List.mem_cons_self
    have ih := entry_written L (setEntry nodes (index h l' p') (hashNode (val l' p')))
      (fun n hn => hL n (List.mem_cons_of_mem _ hn)) hl hp
    rw [entry_setEntry] at ih
    refine ih.trans ?_
    by_cases hmem : (l, p) ∈ L
    · rw [if_pos hmem, if_pos (List.mem_cons_of_mem _ hmem)]
    · rw [if_neg hmem]
      by_cases heq : index h l p = index h l' p'
      · obtain ⟨rfl, rfl⟩ := index_inj hl hl' hp hp' heq
        rw [if_pos rfl, if_pos List.mem_cons_self]
      · rw [if_neg heq, if_neg]
        rintro hc
        rcases List.mem_cons.1 hc with hc | hc
        · rw [Prod.mk.injEq] at hc
          exact heq (by rw [hc.1, hc.2])
        · exact hmem hc

theorem entry_written_of_notMem {j : ℕ} : ∀ (ws : List (ℕ × Str)) (nodes : List (Option Node)),
    (∀ w ∈ ws, w.1 ≠ j) → entry (written nodes ws) j = entry nodes j
  | [], _, _ => rfl
  | w :: ws, nodes, hws => by
    have ih := entry_written_of_notMem ws (setEntry nodes w.1 (hashNode w.2))
      fun x hx => hws x (List.mem_cons_of_mem _ hx)
    exact ih.trans (entry_setEntry_ne _ _ (hws w List.mem_cons_self).symm)

theorem entry_written_of_ge {m j : ℕ} (hj : m ≤ j) (ws : List (ℕ × Str))
    (nodes : List (Option Node)) (hws : ∀ w ∈ ws, w.1 < m) :
    entry (written nodes ws) j = entry nodes j :=
  entry_written_of_notMem ws nodes fun w hw => by have := hws w hw; omega

theorem length_written : ∀ (ws : List (ℕ × Str)) (nodes : List (Option Node)),
    (∀ w ∈ ws, w.1 < nodes.length) → (written nodes ws).length = nodes.length
  | [], _, _ => rfl
  | w :: ws, nodes, hws => by
    have hlen : (setEntry nodes w.1 (hashNode w.2)).length = nodes.length := by
      rw [length_setEntry]
      have := hws w List.mem_cons_self
      omega
    exact (length_written ws _ fun x hx => hlen ▸ hws x (List.mem_cons_of_mem _ hx)).trans hlen

theorem entry_written_cases {j : ℕ} {node : Node} : ∀ (ws : List (ℕ × Str))
    (nodes : List (Option Node)), entry (written nodes ws) j = some node →
      (∃ hash, node = hashNode hash) ∨ entry nodes j = some node
  | [], _, hj => .inr hj
  | w :: ws, nodes, hj => by
    rcases entry_written_cases ws (setEntry nodes w.1 (hashNode w.2)) hj with h1 | h1
    · exact .inl h1
    · rw [entry_setEntry] at h1
      split_ifs at h1
      · exact .inl ⟨w.2, (Option.some.inj h1).symm⟩
      · exact .inr h1

end Written

section AllWrites

variable {sha256 : List UInt8 → Bytes 32} {h k n : ℕ} {ls : List (Bytes 27)}

theorem completed_valid (hn : k + n ≤ 2 ^ h) {m : ℕ × ℕ} (hm : m ∈ completed k n) :
    0 < m.1 ∧ m.1 ≤ h ∧ m.2 < 2 ^ (h - m.1) := by
  obtain ⟨hl, -, hle⟩ := mem_completed.1 hm
  have hpow : 2 ^ m.1 ≤ 2 ^ h :=
    (Nat.le_mul_of_pos_left _ (Nat.succ_pos m.2)).trans (hle.trans hn)
  have hlh : m.1 ≤ h := (Nat.pow_le_pow_iff_right (by norm_num)).1 hpow
  refine ⟨hl, hlh, ?_⟩
  have hsplit : 2 ^ h = 2 ^ (h - m.1) * 2 ^ m.1 := by rw [← pow_add, Nat.sub_add_cancel hlh]
  have := Nat.le_of_mul_le_mul_right (hsplit ▸ hle.trans hn) (by positivity)
  omega

theorem path_valid (hk : k < 2 ^ h) {m : ℕ × ℕ} {l : ℕ} (hm : m ∈ path k l (h - l)) :
    0 < m.1 ∧ m.1 ≤ h ∧ m.2 < 2 ^ (h - m.1) := by
  obtain ⟨hl, hle, hp⟩ := mem_path.1 hm
  have hlh : m.1 ≤ h := by omega
  refine ⟨by omega, hlh, ?_⟩
  rw [hp, Nat.div_lt_iff_lt_mul (by positivity), ← pow_add, Nat.sub_add_cancel hlh]
  exact hk

/-- What an update writes is no node that was complete before, and has a leaf below it. -/
theorem allWrites_cases (hn : k + n ≤ 2 ^ h) (hpos : 0 < n) {w : ℕ × Str}
    (hw : w ∈ allWrites sha256 h ls k n) : ∃ l p, w.1 = index h l p ∧ l ≤ h ∧ p < 2 ^ (h - l) ∧
      k < (p + 1) * 2 ^ l ∧ p * 2 ^ l < k + n := by
  simp only [allWrites, writes, List.mem_append, List.mem_map] at hw
  obtain ⟨⟨l, p⟩, hm, rfl⟩ | ⟨⟨l, p⟩, hm, rfl⟩ := hw
  · obtain ⟨-, hlh, hp⟩ := completed_valid hn hm
    obtain ⟨-, hk, hle⟩ := mem_completed.1 hm
    have hlt : p * 2 ^ l < (p + 1) * 2 ^ l :=
      Nat.mul_lt_mul_of_pos_right (Nat.lt_succ_self p) (by positivity)
    exact ⟨l, p, rfl, hlh, hp, hk, by omega⟩
  · obtain ⟨-, hlh, hp⟩ := path_valid (by omega) hm
    obtain ⟨-, -, rfl⟩ := mem_path.1 hm
    have hlt := Nat.lt_mul_div_succ (k + n - 1) (show 0 < 2 ^ l by positivity)
    rw [mul_comm] at hlt
    have hle := Nat.div_mul_le_self (k + n - 1) (2 ^ l)
    exact ⟨l, (k + n - 1) / 2 ^ l, rfl, hlh, hp, by omega, by omega⟩

theorem allWrites_lt (hn : k + n ≤ 2 ^ h) (hpos : 0 < n) {w : ℕ × Str}
    (hw : w ∈ allWrites sha256 h ls k n) : w.1 < 2 ^ h - 1 := by
  simp only [allWrites, writes, List.mem_append, List.mem_map] at hw
  obtain ⟨m, hm, rfl⟩ | ⟨m, hm, rfl⟩ := hw
  · obtain ⟨hl, hlh, hp⟩ := completed_valid hn hm
    exact index_le_of_le hl hlh hp
  · obtain ⟨hl, hlh, hp⟩ := path_valid (by omega) hm
    exact index_le_of_le hl hlh hp

end AllWrites

/-! ## The inner nodes -/

/-- The nodes above the leaves are those of the tree over `ls`, and absent where it has no leaf;
the root is in full, unless the tree is. -/
structure Hashed (sha256 : List UInt8 → Bytes 32) (h : ℕ) (ls : List (Bytes 27)) (d : TreeDoc) :
    Prop where
  node : ∀ l p, 0 < l → l < h → p < 2 ^ (h - l) → entry d.nodes (index h l p)
    = if p * 2 ^ l < ls.length then some (hashNode (nodeHash sha256 ls l p)) else none
  root : entry d.nodes 0 = if ls = [] then none else some (hashNode
    (if ls.length = 2 ^ h then nodeHash sha256 ls h 0
      else hexlify ((treeScheme sha256).root ls h)))

/-- What an update needs of the nodes below the root: those that the leaves `ls` complete are there,
and none without one of `n` leaves below is. -/
structure Settled (sha256 : List UInt8 → Bytes 32) (h : ℕ) (ls : List (Bytes 27)) (n : ℕ)
    (nodes : List (Option Node)) : Prop where
  complete : ∀ l p, 0 < l → l < h → p < 2 ^ (h - l) → (p + 1) * 2 ^ l ≤ ls.length →
    entry nodes (index h l p) = some (hashNode (nodeHash sha256 ls l p))
  empty : ∀ l p, 0 < l → l < h → p < 2 ^ (h - l) → n ≤ p * 2 ^ l →
    entry nodes (index h l p) = none

theorem Hashed.settled {sha256 : List UInt8 → Bytes 32} {h : ℕ} {ls : List (Bytes 27)} {d : TreeDoc}
    (hd : Hashed sha256 h ls d) {n : ℕ} (hn : ls.length ≤ n) : Settled sha256 h ls n d.nodes where
  complete l p hl hlh hp hle := by
    have hlt : p * 2 ^ l < (p + 1) * 2 ^ l :=
      Nat.mul_lt_mul_of_pos_right (Nat.lt_succ_self p) (by positivity)
    rw [hd.node l p hl hlh hp, if_pos (by omega)]
  empty l p hl hlh hp hle := by rw [hd.node l p hl hlh hp, if_neg (by omega)]

/-- An update leaves no node as it was before it, unless its leaves were complete already. -/
theorem Settled.hashed {sha256 : List UInt8 → Bytes 32} {h : ℕ} (hh : 1 ≤ h)
    {ls vs : List (Bytes 27)} {nodes : List (Option Node)} {d' : TreeDoc}
    (hd : Settled sha256 h ls (ls.length + vs.length) nodes) (hne : vs ≠ [])
    (hn : ls.length + vs.length ≤ 2 ^ h)
    (hd' : d'.nodes = written nodes (allWrites sha256 h (ls ++ vs) ls.length vs.length)) :
    Hashed sha256 h (ls ++ vs) d' := by
  have hpos := List.length_pos_iff.2 hne
  obtain ⟨k, hk⟩ : ∃ k, ls.length + vs.length = k + 1 := ⟨ls.length + vs.length - 1, by omega⟩
  have hlast : ls.length + vs.length - 1 = k := by omega
  have hentry : ∀ l p, l ≤ h → p < 2 ^ (h - l) → entry d'.nodes (index h l p)
      = if (l, p) ∈ path k (slot k) (h - slot k)
        then some (hashNode (pathHash sha256 h (ls ++ vs) l p))
        else if (l, p) ∈ completed ls.length vs.length
        then some (hashNode (nodeHash sha256 (ls ++ vs) l p))
        else entry nodes (index h l p) := by
    intro l p hl hp
    rw [hd', allWrites, written_append, hlast,
      entry_written _ _ (fun m hm => (path_valid (by omega) hm).2) hl hp,
      entry_written _ _ (fun m hm => (completed_valid hn hm).2) hl hp]
  have hs := slot_le (show k < 2 ^ h by omega)
  constructor
  · intro l p hl hlh hp
    rw [hentry l p hlh.le hp, List.length_append, hk]
    by_cases hmem : p * 2 ^ l < k + 1
    · rw [if_pos hmem]
      split_ifs with hpath hcomp
      · rw [pathHash, if_neg hlh.ne]
      · rfl
      · have hold := complete_before hk hl hlh.le hmem hpath hcomp
        rw [hd.complete l p hl hlh hp hold, nodeHash, nodeHash,
          Scheme.node_append_of_complete vs ls hold]
    · have hpath : (l, p) ∉ path k (slot k) (h - slot k) := by
        rw [mem_path]
        rintro ⟨-, -, rfl⟩
        exact hmem (Nat.lt_succ_of_le (Nat.div_mul_le_self k (2 ^ l)))
      have hcomp : (l, p) ∉ completed ls.length vs.length := by
        have hpow : 0 < 2 ^ l := by positivity
        rw [mem_completed, Nat.add_mul]
        omega
      rw [if_neg hmem, if_neg hpath, if_neg hcomp, hd.empty l p hl hlh hp (by omega)]
  · have hne' : ¬ ls ++ vs = [] := by simp [hne]
    have hroot := hentry h 0 le_rfl (by simp)
    rw [index_root] at hroot
    rw [hroot, if_neg hne', List.length_append, hk]
    simp only [mem_path, mem_completed, pathHash, if_true, Nat.zero_add, Nat.one_mul,
      Nat.div_eq_of_lt (show k < 2 ^ h by omega), and_true]
    by_cases hfull : k + 1 = 2 ^ h
    · have hsk := (slot_eq_iff (show k < 2 ^ h by omega)).2 hfull
      rw [if_neg (by omega), if_pos (by omega), if_pos hfull]
    · have hsk : slot k ≠ h := fun hc => hfull ((slot_eq_iff (by omega)).1 hc)
      rw [if_pos (by omega), if_neg hfull]

end CommitMgr

end Baseline
