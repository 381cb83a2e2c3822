import Baseline.OrgRegistry
import Baseline.Await
import Mathlib.Data.Finset.Card
import Mathlib.Data.Finset.Dedup

/-!
# What the registry keeps of an organisation

The array has one entry for each registration and the mapping one record for each address
(`Tracks`), whose own address is zero until it is registered. So the record of an address changes
only when the owner registers it or the address itself updates it (`getOrg_step`). An update does
not reach the array and a second registration adds an entry, so the two agree, and the count is
that of the addresses, just in the runs that do neither (`registry_consistent_iff`).
-/

namespace Baseline

open Await

namespace OrgRegistry

variable {O : Ownable} {s : OrgRegistry} {regs : List Address}

/-! ## One transaction -/

/-- What a transaction can do to the mapping and the array. -/
inductive StepOf (s : OrgRegistry) : Transaction O → OrgRegistry → Prop
  | registered (org : Org) :
      StepOf s ⟨s.owner, .registerOrg org.orgAddress org.name org.messagingEndpoint
          org.whisperKey org.zkpPublicKey org.metadata⟩
        { s with orgMap := Function.update s.orgMap org.orgAddress org, orgs := s.orgs ++ [org] }
  | updated (address : Address) (org : Org)
      (horg : org.orgAddress = (s.orgMap address).orgAddress) :
      StepOf s ⟨org.orgAddress, .updateOrg address org.name org.messagingEndpoint
          org.whisperKey org.zkpPublicKey org.metadata⟩
        { s with orgMap := Function.update s.orgMap address org }
  | kept {tx : Transaction O} {s' : OrgRegistry} (hmap : s'.orgMap = s.orgMap)
      (horgs : s'.orgs = s.orgs) (hreg : s.registers tx = []) : StepOf s tx s'

theorem step_of_exec_none {tx : Transaction O} (h : s.exec tx = none) : s.step tx = s := by
  simp [step, h]

theorem stepOf (s : OrgRegistry) : ∀ tx : Transaction O, StepOf s tx (s.step tx)
  | ⟨msgSender, .registerOrg address name messagingEndpoint whisperKey zkpPublicKey metadata⟩ => by
    by_cases h : msgSender = s.owner
    · subst h
      simp only [step, exec, registerOrg, if_pos]
      exact .registered ⟨address, name, messagingEndpoint, whisperKey, zkpPublicKey, metadata⟩
    · rw [step_of_exec_none (by simp [exec, registerOrg, h])]
      exact .kept rfl rfl (by simp [registers, Call.registering, h])
  | ⟨msgSender, .updateOrg address name messagingEndpoint whisperKey zkpPublicKey metadata⟩ => by
    by_cases h : msgSender = (s.orgMap address).orgAddress
    · subst h
      simp only [step, exec, updateOrg, if_pos]
      exact .updated address { s.orgMap address with
        name, messagingEndpoint, whisperKey, zkpPublicKey, metadata } rfl
    · rw [step_of_exec_none (by simp [exec, updateOrg, h])]
      exact .kept rfl rfl rfl
  | ⟨msgSender, .registerInterfaces groupName tokenAddress shieldAddress verifierAddress⟩ => by
    by_cases h : msgSender = s.owner
    · simp only [step, exec, registerInterfaces, if_pos h]
      exact .kept rfl rfl rfl
    · rw [step_of_exec_none (by simp [exec, registerInterfaces, h])]
      exact .kept rfl rfl rfl
  | ⟨msgSender, .ownable call⟩ => by
    cases h : O.run call s.owner msgSender with
    | none =>
      rw [step_of_exec_none (by simp [exec, h])]
      exact .kept rfl rfl rfl
    | some owner =>
      simp only [step, exec, h]
      exact .kept rfl rfl rfl

/-- What the two stores hold of the addresses registered so far. -/
structure Tracks (s : OrgRegistry) (regs : List Address) : Prop where
  listed : s.orgs.map Org.orgAddress = regs
  keyed : ∀ a ∈ regs, (s.orgMap a).orgAddress = a
  unset : ∀ a ∉ regs, (s.orgMap a).orgAddress = 0

theorem deploy_tracks (deployer : Address) : Tracks (deploy deployer) [] :=
  ⟨rfl, by simp, fun _ _ => rfl⟩

theorem Tracks.step (h : Tracks s regs) (tx : Transaction O) :
    Tracks (s.step tx) (regs ++ s.registers tx) := by
  have hstep := stepOf s tx
  generalize s.step tx = s' at hstep
  cases hstep with
  | registered org =>
    have hreg : s.registers (⟨s.owner, .registerOrg org.orgAddress org.name org.messagingEndpoint
        org.whisperKey org.zkpPublicKey org.metadata⟩ : Transaction O) = [org.orgAddress] := by
      simp [registers, Call.registering]
    rw [hreg]
    refine ⟨by simp [h.listed], ?_, ?_⟩
    · intro a ha
      by_cases hne : a = org.orgAddress
      · simp [hne]
      · simpa [hne] using h.keyed a (by simpa [hne] using ha)
    · intro a ha
      simp only [List.mem_append, List.mem_singleton, not_or] at ha
      simpa [ha.2] using h.unset a ha.1
  | updated address org horg =>
    have hsame : ∀ a, (Function.update s.orgMap address org a).orgAddress
        = (s.orgMap a).orgAddress := by
      intro a
      by_cases hne : a = address
      · rw [hne, Function.update_self, horg]
      · rw [Function.update_of_ne hne]
    simp only [registers, Call.registering, List.append_nil]
    exact ⟨h.listed, fun a ha => (hsame a).trans (h.keyed a ha),
      fun a ha => (hsame a).trans (h.unset a ha)⟩
  | kept hmap horgs hreg =>
    rw [hreg, List.append_nil]
    exact ⟨by rw [horgs, h.listed], by rw [hmap]; exact h.keyed, by rw [hmap]; exact h.unset⟩

theorem Tracks.runs : ∀ (txs : List (Transaction O)) {s : OrgRegistry} {regs : List Address},
    Tracks s regs → Tracks (s.runs txs) (regs ++ s.everRegistered txs)
  | [], _, _, h => by simpa [OrgRegistry.runs, everRegistered] using h
  | tx :: txs, s, regs, h => by
    have hrest := Tracks.runs txs (h.step tx)
    rwa [List.append_assoc] at hrest

/-! ## Who changes a record -/

/-- The record of an address changes only in its registration by the owner, or in an update that
it sends itself. -/
theorem Tracks.getOrg_step (h : Tracks s regs) {tx : Transaction O} (hsender : tx.msgSender ≠ 0)
    {a : Address} (hne : (s.step tx).getOrg a ≠ s.getOrg a) :
    tx.call.registering = some a ∧ tx.msgSender = s.owner ∨
      tx.call.updating = some a ∧ tx.msgSender = a ∧ a ∈ regs := by
  have hstep := stepOf s tx
  generalize s.step tx = s' at hstep hne
  cases hstep with
  | registered org =>
    have ha : org.orgAddress = a := by
      by_contra hother
      exact hne (by simp [getOrg, Ne.symm hother])
    exact .inl ⟨congrArg some ha, rfl⟩
  | updated address org horg =>
    have ha : address = a := by
      by_contra hother
      exact hne (by simp [getOrg, Ne.symm hother])
    have hreg : address ∈ regs := by
      by_contra hnot
      exact hsender (horg.trans (h.unset address hnot))
    subst ha
    exact .inr ⟨rfl, horg.trans (h.keyed address hreg), hreg⟩
  | kept hmap _ _ => exact absurd (congrFun hmap a) hne

theorem getOrg_of_updating {tx : Transaction O} {a : Address} (ha : tx.call.updating = some a)
    (b : Address) : ((s.step tx).getOrg b).orgAddress = (s.getOrg b).orgAddress ∧
      (b ≠ a → (s.step tx).getOrg b = s.getOrg b) := by
  have hstep := stepOf s tx
  generalize s.step tx = s' at hstep
  cases hstep with
  | registered org => cases ha
  | updated address org horg =>
    obtain rfl := Option.some.inj ha
    by_cases hb : b = address
    · subst hb
      simpa [getOrg] using horg
    · simp [getOrg, hb]
  | kept hmap _ _ => simp [getOrg, hmap]

theorem Tracks.reverts_of_updating (h : Tracks s regs) {tx : Transaction O}
    (hsender : tx.msgSender ≠ 0) {a : Address} (ha : tx.call.updating = some a)
    (hnot : a ∉ regs) : s.exec tx = none := by
  rcases tx with ⟨msgSender, call⟩
  cases call with
  | updateOrg address =>
    obtain rfl := Option.some.inj ha
    have hguard : msgSender ≠ (s.orgMap address).orgAddress :=
      fun he => hsender (he.trans (h.unset address hnot))
    simp [exec, updateOrg, hguard]
  | _ => cases ha

theorem access_control (deployer : Address) (txs : List (Transaction O)) (tx : Transaction O)
    (hsender : ∀ t ∈ txs ++ [tx], t.msgSender ≠ 0) :
    let s := (deploy deployer).runs txs
    let registered := (deploy deployer).everRegistered txs
    (∀ a, (s.step tx).getOrg a ≠ s.getOrg a →
      tx.call.registering = some a ∧ tx.msgSender = s.owner ∨
        tx.call.updating = some a ∧ tx.msgSender = a ∧ a ∈ registered) ∧
    ∀ a, tx.call.updating = some a →
      (∀ b, ((s.step tx).getOrg b).orgAddress = (s.getOrg b).orgAddress) ∧
      (∀ b, b ≠ a → (s.step tx).getOrg b = s.getOrg b) ∧
      (a ∉ registered → s.exec tx = none ∧ s.step tx = s) := by
  intro s registered
  have htracks : Tracks s registered := Tracks.runs txs (deploy_tracks deployer)
  have hnext : tx.msgSender ≠ 0 := hsender tx (by simp)
  refine ⟨fun a hne => htracks.getOrg_step hnext hne, fun a ha => ⟨?_, ?_, ?_⟩⟩
  · exact fun b => (getOrg_of_updating ha b).1
  · exact fun b => (getOrg_of_updating ha b).2
  · intro hnot
    have hnone := htracks.reverts_of_updating hnext ha hnot
    exact ⟨hnone, step_of_exec_none hnone⟩

inductive OwnableCall
  | transferOwnership (newOwner : Address)
  | renounceOwnership

/-- `Ownable` as it is documented. -/
def ownable : Ownable where
  Call := OwnableCall
  run
    | .transferOwnership newOwner, owner, msgSender =>
      if msgSender = owner ∧ newOwner ≠ 0 then some newOwner else none
    | .renounceOwnership, owner, msgSender => if msgSender = owner then some 0 else none

/-- The owner, address 1, registers address 2 with a name. -/
def registration (name : UInt8) : Transaction ownable :=
  ⟨1, .registerOrg 2 (.fill 32 name) [] [] [] []⟩

/-- Address 2 renames itself. -/
def selfUpdate (name : UInt8) : Transaction ownable :=
  ⟨2, .updateOrg 2 (.fill 32 name) [] [] [] []⟩

theorem access_control_selfUpdate :
    let s := (deploy 1).runs [registration 7]
    (∀ t ∈ [registration 7] ++ [selfUpdate 8], t.msgSender ≠ 0) ∧
      ∀ b, b ≠ 2 → (s.step (selfUpdate 8)).getOrg b = s.getOrg b := by
  have hsender : ∀ t ∈ [registration 7] ++ [selfUpdate 8], t.msgSender ≠ 0 := by decide
  exact ⟨hsender, ((access_control 1 [registration 7] (selfUpdate 8) hsender).2 2 rfl).2.1⟩

/-! ## When the two stores agree -/

/-- Each entry of the array is what the mapping holds for its address, and there is one entry for
each address registered. -/
structure Consistent (s : OrgRegistry) (registered : List Address) : Prop where
  entries : ∀ i (h : i < s.getOrgCount),
    s.orgs.get ⟨i, h⟩ = s.getOrg (s.orgs.get ⟨i, h⟩).orgAddress
  count : s.getOrgCount = registered.toFinset.card

/-- A registration that goes through is an address's first, and an update that goes through
changes nothing of an organisation in the array. -/
def Heeds (s : OrgRegistry) (tx : Transaction O) : Prop :=
  match tx.call with
  | .registerOrg address .. =>
    tx.msgSender = s.owner → address ∉ s.orgs.map Org.orgAddress
  | .updateOrg address name messagingEndpoint whisperKey zkpPublicKey metadata =>
    tx.msgSender = (s.getOrg address).orgAddress → address ∈ s.orgs.map Org.orgAddress →
      s.getOrg address = { s.getOrg address with
        name, messagingEndpoint, whisperKey, zkpPublicKey, metadata }
  | _ => True

theorem Tracks.consistent_iff (h : Tracks s regs) :
    Consistent s regs ↔ (∀ org ∈ s.orgs, org = s.orgMap org.orgAddress) ∧ regs.Nodup := by
  have hlen : s.getOrgCount = regs.length := by rw [← h.listed, List.length_map]; rfl
  constructor
  · rintro ⟨hentries, hcount⟩
    refine ⟨fun org horg => ?_, ?_⟩
    · obtain ⟨⟨i, hi⟩, rfl⟩ := List.get_of_mem horg
      exact hentries i hi
    · rw [hlen] at hcount
      exact Multiset.coe_nodup.1 (Multiset.toFinset_card_eq_card_iff_nodup.1 hcount.symm)
  · rintro ⟨hmem, hnodup⟩
    refine ⟨fun i hi => hmem _ (List.get_mem _ _), ?_⟩
    rw [hlen, List.toFinset_card_of_nodup hnodup]

theorem Consistent.step (htracks : Tracks s regs) (h : Consistent s regs) {tx : Transaction O}
    (hheeds : Heeds s tx) : Consistent (s.step tx) (regs ++ s.registers tx) := by
  rw [(htracks.step tx).consistent_iff]
  obtain ⟨hentries, hnodup⟩ := htracks.consistent_iff.1 h
  have hstep := stepOf s tx
  generalize s.step tx = s' at hstep
  cases hstep with
  | registered org =>
    have hnew : org.orgAddress ∉ s.orgs.map Org.orgAddress := hheeds rfl
    have hother : ∀ o ∈ s.orgs, o.orgAddress ≠ org.orgAddress :=
      fun o ho he => hnew (he ▸ List.mem_map_of_mem ho)
    rw [htracks.listed] at hnew
    refine ⟨?_, ?_⟩
    · intro o ho
      rcases List.mem_append.1 ho with ho | ho
      · simpa [hother o ho] using hentries o ho
      · obtain rfl := List.mem_singleton.1 ho
        simp
    · simpa [registers, Call.registering] using hnodup.concat hnew
  | updated address org horg =>
    refine ⟨fun o ho => ?_, by simpa [registers, Call.registering] using hnodup⟩
    by_cases hadr : o.orgAddress = address
    · have hsame : s.getOrg address = { s.getOrg address with
          name := org.name, messagingEndpoint := org.messagingEndpoint,
          whisperKey := org.whisperKey, zkpPublicKey := org.zkpPublicKey,
          metadata := org.metadata } := hheeds horg (hadr ▸ List.mem_map_of_mem ho)
      have hrec : s.orgMap address = org := by
        refine hsame.trans ?_
        simp only [getOrg, ← horg]
      simp only [hadr, Function.update_self]
      rw [← hrec, ← hadr]
      exact hentries o ho
    · simpa [hadr] using hentries o ho
  | kept hmap horgs hreg =>
    rw [hreg, List.append_nil, hmap, horgs]
    exact ⟨hentries, hnodup⟩

theorem heeds_of_consistent (htracks : Tracks s regs) (h : Consistent s regs)
    {tx : Transaction O} (hnext : Consistent (s.step tx) (regs ++ s.registers tx)) :
    Heeds s tx := by
  rw [(htracks.step tx).consistent_iff] at hnext
  obtain ⟨hentries, -⟩ := htracks.consistent_iff.1 h
  obtain ⟨hentries', hnodup⟩ := hnext
  rcases tx with ⟨msgSender, call⟩
  cases call with
  | registerOrg address =>
    rintro rfl
    rw [htracks.listed]
    simp only [registers, Call.registering, if_pos] at hnodup
    exact fun hmem => List.disjoint_of_nodup_append hnodup hmem (List.mem_singleton_self _)
  | updateOrg address =>
    rintro rfl hmem
    obtain ⟨o, ho, rfl⟩ := List.mem_map.1 hmem
    simp only [OrgRegistry.step, exec, updateOrg, getOrg, if_pos, Option.map_some,
      Option.getD_some] at hentries'
    have hafter := hentries' o ho
    rw [Function.update_self] at hafter
    rw [getOrg, ← hafter]
    exact (hentries o ho).symm
  | _ => trivial

theorem consistent_iff_of_tracks : ∀ (txs : List (Transaction O)) {s : OrgRegistry}
    {regs : List Address}, Tracks s regs → Consistent s regs →
      ((∀ n, Consistent (s.runs (txs.take n)) (regs ++ s.everRegistered (txs.take n))) ↔
        Along OrgRegistry.step Heeds s txs)
  | [], s, regs, htracks, h => by
    refine ⟨fun _ => trivial, fun _ n => ?_⟩
    simpa [OrgRegistry.runs, everRegistered] using h
  | tx :: txs, s, regs, htracks, h => by
    have hassoc : ∀ n, regs ++ s.everRegistered ((tx :: txs).take (n + 1))
        = regs ++ s.registers tx ++ (s.step tx).everRegistered (txs.take n) :=
      fun n => (List.append_assoc _ _ _).symm
    constructor
    · intro hall
      have hnext : Consistent (s.step tx) (regs ++ s.registers tx) := by
        simpa [OrgRegistry.runs, everRegistered] using hall 1
      refine ⟨heeds_of_consistent htracks h hnext,
        (consistent_iff_of_tracks txs (htracks.step tx) hnext).1 fun n => ?_⟩
      rw [← hassoc]
      exact hall (n + 1)
    · rintro ⟨hheeds, hrest⟩ n
      cases n with
      | zero => simpa [OrgRegistry.runs, everRegistered] using h
      | succ n =>
        rw [hassoc]
        exact (consistent_iff_of_tracks txs (htracks.step tx) (h.step htracks hheeds)).2 hrest n

theorem registry_consistent_iff (deployer : Address) (txs : List (Transaction O)) :
    (∀ n, Consistent ((deploy deployer).runs (txs.take n))
        ((deploy deployer).everRegistered (txs.take n))) ↔
      Along OrgRegistry.step Heeds (deploy deployer) txs := by
  have htracks := deploy_tracks deployer
  refine consistent_iff_of_tracks txs htracks (htracks.consistent_iff.2 ⟨?_, List.nodup_nil⟩)
  rintro org ⟨⟩

/-- An update leaves the entry as it was, and the second registration of an address counts. -/
theorem registry_inconsistent :
    ¬ Consistent ((deploy 1).runs [registration 7, selfUpdate 8])
      ((deploy 1).everRegistered [registration 7, selfUpdate 8]) ∧
    ¬ Consistent ((deploy 1).runs [registration 7, registration 7])
      ((deploy 1).everRegistered [registration 7, registration 7]) := by
  refine ⟨fun h => ?_, fun h => ?_⟩
  · exact absurd (h.entries 0 (by decide)) (by decide)
  · exact absurd h.count (by decide)

/-! ## The interfaces -/

/-- The mapping has the interfaces registered so far at the numbers below the counter. -/
structure Enumerates (s : OrgRegistry) (interfaces : List OrgInterfaces) : Prop where
  count : s.orgInterfaceCount.toNat = interfaces.length
  entry : ∀ i (h : i < interfaces.length),
    s.orgInterfaceMap (BitVec.ofNat 256 i) = interfaces.get ⟨i, h⟩

theorem Enumerates.of_eq {interfaces : List OrgInterfaces} {s' : OrgRegistry}
    (h : Enumerates s interfaces) (hmap : s'.orgInterfaceMap = s.orgInterfaceMap)
    (hcount : s'.orgInterfaceCount = s.orgInterfaceCount) : Enumerates s' interfaces :=
  ⟨hcount ▸ h.count, hmap ▸ h.entry⟩

theorem Enumerates.step {interfaces : List OrgInterfaces} (h : Enumerates s interfaces) :
    ∀ tx : Transaction O, (interfaces ++ s.registersInterfaces tx).length < 2 ^ 256 →
    Enumerates (s.step tx) (interfaces ++ s.registersInterfaces tx)
  | ⟨msgSender, .registerInterfaces groupName tokenAddress shieldAddress verifierAddress⟩,
      hlen => by
    by_cases howner : msgSender = s.owner
    · simp only [registersInterfaces, if_pos howner, List.length_append, List.length_singleton]
        at hlen ⊢
      simp only [OrgRegistry.step, exec, registerInterfaces, if_pos howner, Option.map_some,
        Option.getD_some]
      have hcount := h.count
      refine ⟨by simp [BitVec.toNat_add]; omega, fun i hi => ?_⟩
      simp only [List.length_append, List.length_singleton] at hi
      by_cases hlast : i = interfaces.length
      · have heq : BitVec.ofNat 256 i = s.orgInterfaceCount := by
          apply BitVec.eq_of_toNat_eq
          rw [BitVec.toNat_ofNat, Nat.mod_eq_of_lt (by omega), hcount, hlast]
        subst hlast
        simp [heq]
      · have hne : BitVec.ofNat 256 i ≠ s.orgInterfaceCount := by
          intro heq
          have hnat := congrArg BitVec.toNat heq
          rw [BitVec.toNat_ofNat, Nat.mod_eq_of_lt (by omega)] at hnat
          omega
        have hlt : i < interfaces.length := by omega
        simpa [hne, List.getElem_append_left hlt] using h.entry i hlt
    · have hstep : s.step (⟨msgSender, .registerInterfaces groupName tokenAddress shieldAddress
          verifierAddress⟩ : Transaction O) = s :=
        step_of_exec_none (by simp [exec, registerInterfaces, howner])
      simpa [hstep, registersInterfaces, howner] using h
  | ⟨msgSender, .registerOrg address name messagingEndpoint whisperKey zkpPublicKey metadata⟩,
      _ => by
    simp only [registersInterfaces, List.append_nil, OrgRegistry.step, exec, registerOrg]
    split_ifs <;> exact h.of_eq rfl rfl
  | ⟨msgSender, .updateOrg address name messagingEndpoint whisperKey zkpPublicKey metadata⟩, _ => by
    simp only [registersInterfaces, List.append_nil, OrgRegistry.step, exec, updateOrg]
    split_ifs <;> exact h.of_eq rfl rfl
  | ⟨msgSender, .ownable call⟩, _ => by
    simp only [registersInterfaces, List.append_nil, OrgRegistry.step, exec]
    cases O.run call s.owner msgSender <;> exact h.of_eq rfl rfl

theorem Enumerates.runs : ∀ (txs : List (Transaction O)) {s : OrgRegistry}
    {interfaces : List OrgInterfaces}, Enumerates s interfaces →
    (interfaces ++ s.everRegisteredInterfaces txs).length < 2 ^ 256 →
    Enumerates (s.runs txs) (interfaces ++ s.everRegisteredInterfaces txs)
  | [], _, _, h, _ => by simpa [OrgRegistry.runs, everRegisteredInterfaces] using h
  | tx :: txs, s, interfaces, h, hlen => by
    simp only [everRegisteredInterfaces, ← List.append_assoc] at hlen ⊢
    refine Enumerates.runs txs (h.step tx ?_) hlen
    simp only [List.length_append] at hlen ⊢
    omega

theorem getInterfaceAddresses_runs (deployer : Address) (txs : List (Transaction O))
    (hlen : ((deploy deployer).everRegisteredInterfaces txs).length < 2 ^ 256) :
    let registered := (deploy deployer).everRegisteredInterfaces txs
    ((deploy deployer).runs txs).getInterfaceAddresses
      = (registered.map OrgInterfaces.groupName, registered.map OrgInterfaces.tokenAddress,
          registered.map OrgInterfaces.shieldAddress,
          registered.map OrgInterfaces.verifierAddress) := by
  intro registered
  have hfirst : Enumerates (deploy deployer) [] := ⟨rfl, fun i hi => absurd hi (by simp)⟩
  have h := Enumerates.runs txs hfirst hlen
  have heq : (List.range ((deploy deployer).runs txs).orgInterfaceCount.toNat).map
      (fun i => ((deploy deployer).runs txs).orgInterfaceMap (BitVec.ofNat 256 i))
        = registered := by
    refine List.ext_getElem (by simp [h.count, registered]) fun i hi hi' => ?_
    rw [List.getElem_map, List.getElem_range]
    exact h.entry i hi'
  simp only [getInterfaceAddresses, heq]

theorem getInterfaceAddresses_of_owner :
    let txs : List (Transaction ownable) := [⟨1, .registerInterfaces (.fill 32 7) 2 3 4⟩,
      ⟨2, .registerInterfaces (.fill 32 8) 2 3 4⟩]
    ((deploy 1).everRegisteredInterfaces txs).length < 2 ^ 256 ∧
      ((deploy 1).runs txs).getInterfaceAddresses = ([.fill 32 7], [2], [3], [4]) := by
  intro txs
  have hlen : ((deploy 1).everRegisteredInterfaces txs).length < 2 ^ 256 := by decide
  exact ⟨hlen, getInterfaceAddresses_runs 1 txs hlen⟩

end OrgRegistry

end Baseline
