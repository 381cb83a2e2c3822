import Baseline.ParticipantStack
import Baseline.Proofs.MerkleTreeSHA256
import Baseline.Sha256
import Baseline.Shield

/-!
# What is bound

Neither end of a commitment is tied to the other. The hash that is pushed on-chain is that of no
bytes at all, since neither a JSON text nor an object's text starts with a hex digit
(`preimage_hexValue`); and the shield hands the verifier nothing of the commitment, so a proof it
accepts once pushes any commitment (`authorises_iff`).
-/

namespace Baseline

/-! ## The hash of a document -/

section Documents

/-- `Buffer.from` stops where it starts. -/
theorem bufferFromHex_of_not_hex {c : Char} (hc : hexVal c = none) (s : Str) :
    bufferFromHex (c :: s) = [] := by
  rcases s with _ | ⟨d, s⟩
  · rfl
  · rw [bufferFromHex, hc]

theorem stringify_object (properties : List (Str × Json)) :
    (Json.object properties).stringify
      = '{' :: (Json.stringifyProperties properties ++ ['}']) := by
  rw [Json.stringify, List.cons_append]

theorem preimage_object_text (properties : List (Str × Json)) :
    Privacy.preimage [.string (Json.object properties).stringify] = some [] := by
  have hstrip : Privacy.strip0x (.string (Json.object properties).stringify)
      = '{' :: (Json.stringifyProperties properties ++ ['}']) := by
    rw [stringify_object]
    rfl
  rw [Privacy.preimage, List.map_singleton, hstrip, bufferFromHex_of_not_hex (by decide)]
  rfl

theorem preimage_object (properties : List (Str × Json)) :
    Privacy.preimage [.object properties] = some [] := by
  rw [Privacy.preimage, List.map_singleton, Privacy.strip0x, Privacy.objectText,
    bufferFromHex_of_not_hex (by decide)]
  rfl

open ParticipantStack

theorem preimage_hexValue (x : Baselined) : Privacy.preimage [x.hexValue] = some [] := by
  cases x with
  | commitment v => exact preimage_object_text v.properties
  | promised v => exact preimage_object_text []
  | documentText d => exact preimage_object_text d.properties
  | document d => exact preimage_object d.properties

/-- No two documents are told apart. -/
theorem preimage_binds_nothing (x y : Baselined) :
    Privacy.preimage [x.hexValue] = Privacy.preimage [y.hexValue] := by
  rw [preimage_hexValue, preimage_hexValue]

theorem preimage_two_jobs :
    Baselined.commitment ⟨1, 0, 0, 0, 0, 0, 0, 0, 0, 0, 0⟩
        ≠ .commitment ⟨2, 0, 0, 0, 0, 0, 0, 0, 0, 0, 0⟩ ∧
      Privacy.preimage [(Baselined.commitment ⟨1, 0, 0, 0, 0, 0, 0, 0, 0, 0, 0⟩).hexValue]
        = Privacy.preimage [(Baselined.commitment ⟨2, 0, 0, 0, 0, 0, 0, 0, 0, 0, 0⟩).hexValue] := by
  refine ⟨fun h => ?_, ?_⟩
  · injection h with h
    cases h
  · rw [preimage_hexValue, preimage_hexValue]

end Documents

/-! ## The proof of a commitment -/

section Proofs

namespace MerkleTreeSHA256

variable {H : Bytes 54 → Bytes 32} {t : MerkleTreeSHA256}

/-! Only indices can make a transaction fail, not the values that are hashed. -/

theorem hashUp_bind_isSome {α : Type} (f g : Frontier) (i : ℕ) {p q : Path}
    (h : p.nodeIndex = q.nodeIndex) {k l : Path → Option α}
    (hkl : ∀ p q, p.nodeIndex = q.nodeIndex → (k p).isSome = (l q).isSome) :
    ((hashUp H f i p).bind k).isSome = ((hashUp H g i q).bind l).isSome := by
  unfold hashUp
  rw [h]
  split_ifs with heven
  · by_cases hi : i < 33
    · simp only [Frontier.read, hi, dif_pos, Option.bind_eq_bind, Option.pure_def,
        Option.bind_some]
      exact hkl _ _ rfl
    · simp only [Frontier.read, hi, dif_neg, not_false_eq_true, Option.bind_eq_bind,
        Option.bind_none]
  · exact hkl _ _ rfl

theorem write_bind_isSome {α : Type} (f g : Frontier) (i : ℕ) (u v : Bytes 27)
    {k l : Frontier → Option α} (hkl : ∀ f g, (k f).isSome = (l g).isSome) :
    ((f.write i u).bind k).isSome = ((g.write i v).bind l).isSome := by
  by_cases hi : i < 33
  · simp only [Frontier.write, hi, dif_pos, Option.bind_some]
    exact hkl _ _
  · simp only [Frontier.write, hi, dif_neg, not_false_eq_true, Option.bind_none]

theorem insertLeafLoop_isSome (slot : ℕ) : ∀ (n level : ℕ) (f g : Frontier) (p q : Path),
    p.nodeIndex = q.nodeIndex →
      (insertLeafLoop H slot n level f p).isSome = (insertLeafLoop H slot n level g q).isSome
  | 0, _, _, _, _, _, _ => rfl
  | n + 1, level, f, g, p, q, h => by
    have hnext : ∀ f g : Frontier, ((hashUp H f level p).bind fun p =>
          insertLeafLoop H slot n (level + 1) f p).isSome
        = ((hashUp H g level q).bind fun q =>
          insertLeafLoop H slot n (level + 1) g q).isSome := fun f g =>
      hashUp_bind_isSome f g level h (insertLeafLoop_isSome slot n (level + 1) f g)
    simp only [insertLeafLoop, Option.bind_eq_bind]
    split_ifs
    · exact write_bind_isSome f g slot _ _ hnext
    · exact hnext f g

theorem insertLeaf_isSome (t : MerkleTreeSHA256) (u v : Bytes 32) :
    (t.insertLeaf H u).isSome = (t.insertLeaf H v).isSome := by
  unfold insertLeaf
  by_cases hspace : t.treeWidth > t.leafCount
  · rcases hslot : getFrontierSlot t.leafCount with _ | slot
    · simp [hspace, guard]
    · have hloop := insertLeafLoop_isSome (H := H) slot t.treeHeight 0 t.frontier t.frontier
        ⟨usub (uadd t.leafCount t.treeWidth) 1, u.shl40.toBytes27, Bytes.zeros 32⟩
        ⟨usub (uadd t.leafCount t.treeWidth) 1, v.shl40.toBytes27, Bytes.zeros 32⟩ rfl
      simpa [hspace, guard, Option.isSome_bind] using hloop
  · simp [hspace, guard]

end MerkleTreeSHA256

namespace Shield

variable (H : Bytes 54 → Bytes 32) (s : Shield) (proof : Fin 8 → Uint256)
  (publicInputs : Fin 2 → Uint256) (newCommitment : Bytes 32)

/-- Some leaf can be inserted. -/
def HasSpace : Prop := ∃ leafValue, (s.toMerkleTreeSHA256.insertLeaf H leafValue).isSome

/-- If the commitment is pushed, no other one would have been. -/
def Authorises : Prop :=
  (s.verifyAndPush H proof publicInputs newCommitment).isSome →
    ∀ other ≠ newCommitment, s.verifyAndPush H proof publicInputs other = none

theorem hasSpace_of_lt {h : ℕ} (hh : 1 ≤ h) (h32 : h ≤ 32)
    (hs : MerkleTreeSHA256.Sized h s.toMerkleTreeSHA256) (hlt : s.leafCount < 2 ^ h) :
    HasSpace H s := by
  obtain ⟨t', h1, -⟩ :=
    MerkleTreeSHA256.insertLeaf_eq (H := H) hh (by omega) hs hlt (Bytes.zeros 32)
  exact ⟨Bytes.zeros 32, by rw [h1]; rfl⟩

theorem hasSpace_iff : HasSpace H s
    ↔ (s.toMerkleTreeSHA256.insertLeaf H newCommitment).isSome := by
  constructor
  · rintro ⟨leafValue, h⟩
    rwa [MerkleTreeSHA256.insertLeaf_isSome]
  · exact fun h => ⟨newCommitment, h⟩

theorem verifyAndPush_isSome : (s.verifyAndPush H proof publicInputs newCommitment).isSome
    ↔ s.verifies proof publicInputs = true ∧ HasSpace H s := by
  rw [hasSpace_iff H s newCommitment, verifyAndPush]
  cases s.verifies proof publicInputs with
  | false => simp [guard]
  | true => simp [guard, Option.isSome_bind]

/-- In a shield with space left, a proof authorises one commitment only if it authorises none. -/
theorem authorises_iff (hspace : HasSpace H s) :
    Authorises H s proof publicInputs newCommitment ↔ s.verifies proof publicInputs = false := by
  have hpushed := fun c => verifyAndPush_isSome H s proof publicInputs c
  constructor
  · intro h
    by_contra haccept
    have hall := fun c => (hpushed c).2 ⟨Bool.not_eq_false _ ▸ haccept, hspace⟩
    obtain ⟨other, hne⟩ : ∃ other, other ≠ newCommitment := by
      by_cases hzero : newCommitment = Bytes.zeros 32
      · exact ⟨Bytes.fill 32 1, hzero ▸ by decide⟩
      · exact ⟨Bytes.zeros 32, Ne.symm hzero⟩
    have hnone := h (hall newCommitment) other hne
    have hsome := hall other
    rw [hnone] at hsome
    cases hsome
  · intro hreject hsome
    have haccept := ((hpushed newCommitment).1 hsome).1
    rw [hreject] at haccept
    cases haccept

/-- A verifier that only looks at the first number of a proof. -/
def firstIs (key : Uint256) : IVerifier where
  verifyTx a _ _ _ := (a ⟨0, Nat.two_pos⟩).toNat = key.toNat

theorem authorises_rejected :
    Authorises (precompile Sha256.digest) (new (firstIs 5) 1) (fun _ => 4) (fun _ => 0)
      (Bytes.zeros 32) := by
  have hspace := hasSpace_of_lt (precompile Sha256.digest) (new (firstIs 5) 1) le_rfl
    (by norm_num) (MerkleTreeSHA256.new_sized (by norm_num)) (by decide)
  exact (authorises_iff _ _ _ _ _ hspace).2 (by decide)

theorem not_authorises_accepted :
    HasSpace (precompile Sha256.digest) (new (firstIs 5) 1) ∧
      ¬ Authorises (precompile Sha256.digest) (new (firstIs 5) 1) (fun _ => 5) (fun _ => 0)
        (Bytes.zeros 32) := by
  refine ⟨⟨Bytes.zeros 32, by decide +kernel⟩, fun h => ?_⟩
  have hnone := h (by decide +kernel) (Bytes.fill 32 1) (by decide)
  have hsome : ((new (firstIs 5) 1).verifyAndPush (precompile Sha256.digest) (fun _ => 5)
      (fun _ => 0) (Bytes.fill 32 1)).isSome := by decide +kernel
  rw [hnone] at hsome
  cases hsome

end Shield

end Proofs

end Baseline
