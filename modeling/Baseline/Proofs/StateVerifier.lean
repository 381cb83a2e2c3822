import Baseline.Proofs.Commitment

/-!
# What the circuit's hash binds

The circuit hashes two times four elements and then the two hashes (`newHash_blocks`). In the
contract phases the first eight are the state and all inputs but `ContractH2`, of which a product
is made that nothing reads. So two inputs are told apart exactly by the others
(`newHash_binds_iff`).
-/

namespace Baseline

namespace StateVerifier

abbrev Four : Type := Field × Field × Field × Field

/-- The circuit's first selector. -/
def a (i : Inputs) : Field :=
  if (i.State = .ofNat 1 ∨ i.State = .ofNat 2 ∨ i.State = .ofNat 5) ∧ i.ContractH1 = i.State ∧
    i.ContractH2 = i.State ∧ i.SupplierID = i.State ∧ i.DocHash1 = i.State ∧
    i.DocHash2 = i.State then .ofNat 0 else .ofNat 1

/-- And its second. -/
def g (i : Inputs) : Field :=
  if (i.State = .ofNat 3 ∨ i.State = .ofNat 4) ∧ i.DocHash1 ≠ i.ContractH1 ∧
    i.DocHash2 ≠ i.ContractH2 then .ofNat 1 else .ofNat 0

/-- The four elements of the first hash. -/
def firstFour (i : Inputs) : Four := (i.State, i.MJ_ID, a i * i.SupplierID, i.LC1)

/-- The four elements of the second hash. -/
def secondFour (i : Inputs) : Four :=
  (a i * i.DocHash1, a i * i.DocHash2, g i * (a i * i.ContractH1), i.LC2)

section Hashes

variable (sha256packed : Field → Field → Field → Field → Field × Field)

def hashFour (q : Four) : Field × Field := sha256packed q.1 q.2.1 q.2.2.1 q.2.2.2

/-- The four elements of the last hash. -/
def lastFour (i : Inputs) : Four :=
  let Hash1 := hashFour sha256packed (firstFour i)
  let Hash2 := hashFour sha256packed (secondFour i)
  (Hash1.1, Hash1.2, Hash2.1, Hash2.2)

/-- Everything the circuit hashes, in turn. -/
def blocks (i : Inputs) : List Four := [firstFour i, secondFour i, lastFour sha256packed i]

theorem newHash_blocks (i : Inputs) :
    NewHash sha256packed i = hashFour sha256packed (lastFour sha256packed i) := rfl

/-- The hash tells apart what is hashed of two inputs. -/
def TellsApart (i j : Inputs) : Prop :=
  ∀ q q', (q, q') ∈ (blocks sha256packed i).zip (blocks sha256packed j) →
    hashFour sha256packed q = hashFour sha256packed q' → q = q'

end Hashes

/-- The states with a contract, and a contract that is not the document. -/
structure ContractPhase (i : Inputs) : Prop where
  state : i.State = Field.ofNat 3 ∨ i.State = Field.ofNat 4
  contractH1 : i.DocHash1 ≠ i.ContractH1
  contractH2 : i.DocHash2 ≠ i.ContractH2

/-- Two inputs are the same in everything but `ContractH2`. -/
structure SameBut (i j : Inputs) : Prop where
  mj_id : i.MJ_ID = j.MJ_ID
  supplierID : i.SupplierID = j.SupplierID
  docHash1 : i.DocHash1 = j.DocHash1
  docHash2 : i.DocHash2 = j.DocHash2
  contractH1 : i.ContractH1 = j.ContractH1
  lc1 : i.LC1 = j.LC1
  lc2 : i.LC2 = j.LC2

section Binding

variable {sha256packed : Field → Field → Field → Field → Field × Field} {i j : Inputs}

/-- Neither selector takes anything away. -/
theorem ContractPhase.fours (h : ContractPhase i) :
    firstFour i = (i.State, i.MJ_ID, i.SupplierID, i.LC1) ∧
      secondFour i = (i.DocHash1, i.DocHash2, i.ContractH1, i.LC2) := by
  have hno : ¬ (i.State = .ofNat 1 ∨ i.State = .ofNat 2 ∨ i.State = .ofNat 5) := by
    rcases h.state with hs | hs <;> rw [hs] <;> decide
  have ha : a i = .ofNat 1 := if_neg fun hi => hno hi.1
  have hg : g i = .ofNat 1 := if_pos ⟨h.state, h.contractH1, h.contractH2⟩
  have hone : ∀ x : Field, .ofNat 1 * x = x := Fin.one_mul
  unfold firstFour secondFour
  simp only [ha, hg, hone, and_self]

theorem blocks_eq_iff (hi : ContractPhase i) (hj : ContractPhase j) (hstate : i.State = j.State) :
    blocks sha256packed i = blocks sha256packed j ↔ SameBut i j := by
  constructor
  · intro h
    simp only [blocks, List.cons.injEq, hi.fours.1, hj.fours.1, hi.fours.2, hj.fours.2,
      Prod.mk.injEq] at h
    obtain ⟨⟨-, hmj, hsupplier, hlc1⟩, ⟨hdoc1, hdoc2, hcontract, hlc2⟩, -⟩ := h
    exact ⟨hmj, hsupplier, hdoc1, hdoc2, hcontract, hlc1, hlc2⟩
  · rintro ⟨hmj, hsupplier, hdoc1, hdoc2, hcontract, hlc1, hlc2⟩
    have hfirst : firstFour i = firstFour j := by
      rw [hi.fours.1, hj.fours.1, hstate, hmj, hsupplier, hlc1]
    have hsecond : secondFour i = secondFour j := by
      rw [hi.fours.2, hj.fours.2, hdoc1, hdoc2, hcontract, hlc2]
    simp only [blocks, lastFour, hfirst, hsecond]

/-- Where nothing collides, equal hashes are of equal blocks. -/
theorem blocks_eq_of_newHash_eq (hfree : TellsApart sha256packed i j)
    (h : NewHash sha256packed i = NewHash sha256packed j) :
    blocks sha256packed i = blocks sha256packed j := by
  rw [newHash_blocks, newHash_blocks] at h
  have hlast : lastFour sha256packed i = lastFour sha256packed j :=
    hfree _ _ (by simp [blocks]) h
  have hlast' := hlast
  simp only [lastFour, Prod.mk.injEq] at hlast'
  obtain ⟨h1, h2, h3, h4⟩ := hlast'
  have hfirst : firstFour i = firstFour j := hfree _ _ (by simp [blocks]) (Prod.ext h1 h2)
  have hsecond : secondFour i = secondFour j := hfree _ _ (by simp [blocks]) (Prod.ext h3 h4)
  simp only [blocks, hfirst, hsecond, hlast]

theorem newHash_binds_iff (hi : ContractPhase i) (hj : ContractPhase j)
    (hstate : i.State = j.State) :
    (blocks sha256packed i ≠ blocks sha256packed j ∧
        (TellsApart sha256packed i j → NewHash sha256packed i ≠ NewHash sha256packed j)) ↔
      ¬ SameBut i j := by
  rw [← blocks_eq_iff hi hj hstate]
  constructor
  · exact fun h => h.1
  · exact fun h => ⟨h, fun hfree heq => h (blocks_eq_of_newHash_eq hfree heq)⟩

/-- An input of state 3 that the circuit accepts. -/
def accepted (sha256packed : Field → Field → Field → Field → Field × Field)
    (MJ_ID ContractH2 : ℕ) : Inputs :=
  let i : Inputs := ⟨.ofNat 3, .ofNat MJ_ID, .ofNat 4, .ofNat 5, .ofNat 6, .ofNat 7,
    .ofNat ContractH2, .ofNat 0, .ofNat 0, .ofNat 0, .ofNat 0⟩
  let NewHash := NewHash sha256packed i
  { i with NC1 := NewHash.1, NC2 := NewHash.2 }

theorem main_accepted (MJ_ID ContractH2 : ℕ) :
    (main sha256packed (accepted sha256packed MJ_ID ContractH2)).isSome := by
  have hnew : NewHash sha256packed (accepted sha256packed MJ_ID ContractH2)
      = ((accepted sha256packed MJ_ID ContractH2).NC1,
        (accepted sha256packed MJ_ID ContractH2).NC2) := rfl
  rw [main, if_pos hnew, Option.isSome_some]

theorem accepted_blocks (ContractH2 ContractH2' : ℕ)
    (h : ContractPhase (accepted sha256packed 1 ContractH2))
    (h' : ContractPhase (accepted sha256packed 1 ContractH2')) :
    blocks sha256packed (accepted sha256packed 1 ContractH2)
      = blocks sha256packed (accepted sha256packed 1 ContractH2') :=
  (blocks_eq_iff h h' rfl).2 (by constructor <;> rfl)

theorem newHash_eq_of_blocks_eq (h : blocks sha256packed i = blocks sha256packed j) :
    NewHash sha256packed i = NewHash sha256packed j := by
  simp only [blocks, List.cons.injEq, and_true] at h
  exact congrArg (hashFour sha256packed) h.2.2

/-- The imported hash over SHA-256 itself. -/
abbrev sha256Packed : Field → Field → Field → Field → Field × Field :=
  ParticipantStack.packed Sha256.digest

theorem newHash_binds_mj_id : blocks sha256Packed (accepted sha256Packed 1 8)
    ≠ blocks sha256Packed (accepted sha256Packed 2 8) := by
  have h1 : ContractPhase (accepted sha256Packed 1 8) := ⟨.inl rfl, by decide, by decide⟩
  have h2 : ContractPhase (accepted sha256Packed 2 8) := ⟨.inl rfl, by decide, by decide⟩
  exact ((newHash_binds_iff h1 h2 rfl).2 fun h => absurd h.mj_id (by decide)).1

/-- Two accepted inputs of the same hash, each with a second contract hash of its own. -/
theorem contractH2_unbound :
    let i := accepted sha256Packed 1 8
    let j := accepted sha256Packed 1 9
    ContractPhase i ∧ ContractPhase j ∧ i.State = j.State ∧ (main sha256Packed i).isSome ∧
      (main sha256Packed j).isSome ∧ i.ContractH2 ≠ j.ContractH2 ∧
      blocks sha256Packed i = blocks sha256Packed j ∧
      NewHash sha256Packed i = NewHash sha256Packed j := by
  have h8 : ContractPhase (accepted sha256Packed 1 8) := ⟨.inl rfl, by decide, by decide⟩
  have h9 : ContractPhase (accepted sha256Packed 1 9) := ⟨.inl rfl, by decide, by decide⟩
  have hblocks := accepted_blocks 8 9 h8 h9
  exact ⟨h8, h9, rfl, main_accepted 1 8, main_accepted 1 9, by decide, hblocks,
    newHash_eq_of_blocks_eq hblocks⟩

end Binding

end StateVerifier

end Baseline
