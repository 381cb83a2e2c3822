import Mathlib.Data.List.Basic
import Mathlib.Data.Nat.Notation

/-!
# Objects as lists of entries

The properties of an object in the order in which a language that keeps an order lists them. A
name keeps the place where it was first put (`set`); numbers go before one another by their size
(`setIndex`), so a list of them is ascending (`Ascending.setIndex`) and its first entry with some
property is the one with the least number (`Ascending.head_filter`).
-/

namespace Objects

variable {κ ν : Type}

section Names

variable [DecidableEq κ]

def get (k : κ) : List (κ × ν) → Option ν
  | [] => none
  | (k', v) :: o => if k' = k then some v else get k o

def set (k : κ) (v : ν) : List (κ × ν) → List (κ × ν)
  | [] => [(k, v)]
  | (k', v') :: o => if k' = k then (k, v) :: o else (k', v') :: set k v o

variable {k : κ} {v w : ν}

theorem set_set : ∀ o : List (κ × ν), set k w (set k v o) = set k w o
  | [] => by simp [set]
  | (k', v') :: o => by
    by_cases h : k' = k
    · simp [set, h]
    · simp [set, h, set_set o]

theorem get_map {f : κ → ν} : ∀ {ks : List κ}, k ∈ ks →
    get k (ks.map fun k => (k, f k)) = some (f k)
  | [], h => absurd h List.not_mem_nil
  | k' :: ks, h => by
    rw [List.map_cons, get]
    split_ifs with hk
    · rw [hk]
    · exact get_map ((List.mem_cons.1 h).resolve_left fun h => hk h.symm)

theorem set_map {f : κ → ν} : ∀ {ks : List κ}, ks.Nodup → k ∈ ks →
    set k v (ks.map fun k => (k, f k)) = ks.map fun k' => (k', if k' = k then v else f k')
  | [], _, h => absurd h List.not_mem_nil
  | k' :: ks, hks, h => by
    obtain ⟨hnot, hrest⟩ := List.nodup_cons.1 hks
    rw [List.map_cons, List.map_cons, set]
    split_ifs with hk
    · subst hk
      congr 1
      refine List.map_congr_left fun j hj => ?_
      have hne : j ≠ k' := fun heq => hnot (heq ▸ hj)
      rw [if_neg hne]
    · rw [set_map hrest ((List.mem_cons.1 h).resolve_left fun h => hk h.symm)]

theorem mem_set : ∀ {o : List (κ × ν)} {p : κ × ν}, p ∈ set k v o → p = (k, v) ∨ p ∈ o
  | [], p, h => .inl (List.mem_singleton.1 h)
  | (k', v') :: o, p, h => by
    unfold set at h
    split_ifs at h
    · exact (List.mem_cons.1 h).imp_right (List.mem_cons_of_mem _)
    · rcases List.mem_cons.1 h with h | h
      · exact .inr (h ▸ List.mem_cons_self)
      · exact (mem_set h).imp_right (List.mem_cons_of_mem _)

/-- No name comes twice. -/
theorem nodup_set : ∀ {o : List (κ × ν)}, (o.map Prod.fst).Nodup →
    ((set k v o).map Prod.fst).Nodup
  | [], _ => List.nodup_cons.2 ⟨List.not_mem_nil, List.nodup_nil⟩
  | (k', v') :: o, h => by
    obtain ⟨hnot, hrest⟩ := List.nodup_cons.1 h
    unfold set
    split_ifs with hk
    · exact List.nodup_cons.2 ⟨hk ▸ hnot, hrest⟩
    · refine List.nodup_cons.2 ⟨fun hmem => ?_, nodup_set hrest⟩
      obtain ⟨p, hp, hpk⟩ := List.mem_map.1 hmem
      rcases mem_set hp with rfl | hp
      · exact hk hpk.symm
      · exact hnot (List.mem_map.2 ⟨p, hp, hpk⟩)

theorem set_of_notMem : ∀ {o : List (κ × ν)}, (∀ p ∈ o, p.1 ≠ k) → set k v o = o ++ [(k, v)]
  | [], _ => rfl
  | (k', v') :: o, h => by
    rw [set, if_neg (h _ (List.mem_cons_self ..)),
      set_of_notMem fun p hp => h p (List.mem_cons_of_mem _ hp)]
    rfl

/-- Different names are listed as they are put. -/
theorem foldl_set : ∀ {ks : List κ} {o : List (κ × ν)}, ks.Nodup → (∀ p ∈ o, p.1 ∉ ks) →
    ks.foldl (fun o k => set k v o) o = o ++ ks.map fun k => (k, v)
  | [], _, _, _ => by simp
  | k :: ks, o, hks, h => by
    obtain ⟨hnot, hrest⟩ := List.nodup_cons.1 hks
    have hk : ∀ p ∈ o, p.1 ≠ k := fun p hp hpk => h p hp (hpk ▸ List.mem_cons_self ..)
    rw [List.foldl_cons, set_of_notMem hk, foldl_set hrest, List.append_assoc]
    · rfl
    · intro p hp
      rcases List.mem_append.1 hp with hp | hp
      · exact fun hmem => h p hp (List.mem_cons_of_mem _ hmem)
      · rw [List.mem_singleton.1 hp]
        exact hnot

end Names

section Numbers

def setIndex (k : ℕ) (v : ν) : List (ℕ × ν) → List (ℕ × ν)
  | [] => [(k, v)]
  | (k', v') :: o =>
    if k < k' then (k, v) :: (k', v') :: o
    else if k' = k then (k, v) :: o
    else (k', v') :: setIndex k v o

def Ascending (o : List (ℕ × ν)) : Prop := o.Pairwise fun p q => p.1 < q.1

variable {k j : ℕ} {v : ν} {o : List (ℕ × ν)}

theorem get_setIndex : ∀ o : List (ℕ × ν),
    get j (setIndex k v o) = if k = j then some v else get j o
  | [] => rfl
  | (k', v') :: o => by
    unfold setIndex
    by_cases hlt : k < k'
    · rw [if_pos hlt, get]
    rw [if_neg hlt]
    by_cases heq : k' = k
    · rw [if_pos heq, get, get, heq]
      split_ifs <;> rfl
    · rw [if_neg heq, get, get_setIndex o, get]
      by_cases hj : k' = j
      · rw [if_pos hj, if_pos hj, if_neg fun h => heq (hj.trans h.symm)]
      · rw [if_neg hj, if_neg hj]

theorem mem_setIndex : ∀ {o : List (ℕ × ν)} {p : ℕ × ν}, p ∈ setIndex k v o →
    p = (k, v) ∨ p ∈ o
  | [], p, h => .inl (List.mem_singleton.1 h)
  | (k', v') :: o, p, h => by
    unfold setIndex at h
    split_ifs at h with hlt heq
    · exact List.mem_cons.1 h
    · exact (List.mem_cons.1 h).imp_right (List.mem_cons_of_mem _)
    · rcases List.mem_cons.1 h with h | h
      · exact .inr (h ▸ List.mem_cons_self ..)
      · exact (mem_setIndex h).imp_right (List.mem_cons_of_mem _)

theorem Ascending.setIndex : ∀ {o : List (ℕ × ν)}, Ascending o → Ascending (setIndex k v o)
  | [], _ => List.pairwise_singleton _ _
  | (k', v') :: o, h => by
    obtain ⟨hfirst, hrest⟩ := List.pairwise_cons.1 h
    unfold Objects.setIndex
    split_ifs with hlt heq
    · refine List.pairwise_cons.2 ⟨fun p hp => ?_, h⟩
      rcases List.mem_cons.1 hp with rfl | hp
      · exact hlt
      · exact Nat.lt_trans hlt (hfirst p hp)
    · exact List.pairwise_cons.2 ⟨fun p hp => heq ▸ hfirst p hp, hrest⟩
    · refine List.pairwise_cons.2 ⟨fun p hp => ?_, Ascending.setIndex hrest⟩
      rcases mem_setIndex hp with rfl | hp
      · change k' < k
        omega
      · exact hfirst p hp

/-- The entries are what is read. -/
theorem Ascending.mem_iff : ∀ {o : List (ℕ × ν)}, Ascending o → ((k, v) ∈ o ↔ get k o = some v)
  | [], _ => by simp [get]
  | (k', v') :: o, h => by
    obtain ⟨hfirst, hrest⟩ := List.pairwise_cons.1 h
    rw [get, List.mem_cons]
    split_ifs with hk
    · subst hk
      constructor
      · rintro (h | h)
        · rw [(Prod.mk.inj h).2]
        · exact absurd (hfirst _ h) (Nat.lt_irrefl _)
      · rintro ⟨⟩
        exact .inl rfl
    · rw [← Ascending.mem_iff hrest]
      exact or_iff_right fun h => hk (Prod.mk.inj h).1.symm

theorem Ascending.nodup (h : Ascending o) : (o.map Prod.fst).Nodup :=
  (List.pairwise_map.2 h).imp Nat.ne_of_lt

theorem mem_keys_iff : ∀ {o : List (ℕ × ν)}, k ∈ o.map Prod.fst ↔ (get k o).isSome
  | [] => by simp [get]
  | (k', v') :: o => by
    rw [List.map_cons, List.mem_cons, get]
    split_ifs with hk
    · simp [hk]
    · rw [mem_keys_iff]
      exact or_iff_right fun h => hk h.symm

/-- The first entry with a property has the least number. -/
theorem Ascending.head_filter (h : Ascending o) {p : ℕ × ν → Bool} (hk : get k o = some v)
    (hp : p (k, v)) (hmin : ∀ j w, j < k → get j o = some w → ¬p (j, w)) :
    (o.filter p).head? = some (k, v) := by
  have hmem : (k, v) ∈ o.filter p := List.mem_filter.2 ⟨h.mem_iff.2 hk, hp⟩
  cases hf : o.filter p with
  | nil =>
    rw [hf] at hmem
    exact absurd hmem List.not_mem_nil
  | cons q rest =>
    have hq : q ∈ o.filter p := hf ▸ List.mem_cons_self ..
    obtain ⟨hqo, hqp⟩ := List.mem_filter.1 hq
    have hasc : (q :: rest).Pairwise fun p q => p.1 < q.1 := hf ▸ h.filter p
    rw [hf] at hmem
    rcases List.mem_cons.1 hmem with heq | hrest
    · rw [List.head?_cons, heq]
    · exact absurd hqp (hmin q.1 q.2 ((List.pairwise_cons.1 hasc).1 _ hrest) (h.mem_iff.1 hqo))

theorem setIndex_of_lt : ∀ {o : List (ℕ × ν)}, (∀ p ∈ o, p.1 < k) → setIndex k v o = o ++ [(k, v)]
  | [], _ => rfl
  | (k', v') :: o, h => by
    have hk : k' < k := h _ (List.mem_cons_self ..)
    rw [setIndex, if_neg (by omega), if_neg (by omega),
      setIndex_of_lt fun p hp => h p (List.mem_cons_of_mem _ hp)]
    rfl

/-- Taking over the entries with a property, one after the other, keeps just those. -/
theorem Ascending.foldl_setIndex {p : ℕ × ν → Bool} : ∀ {o acc : List (ℕ × ν)},
    Ascending o → (∀ q ∈ acc, ∀ r ∈ o, q.1 < r.1) →
    o.foldl (fun acc r => if p r then Objects.setIndex r.1 r.2 acc else acc) acc
      = acc ++ o.filter p
  | [], acc, _, _ => by simp
  | r :: o, acc, h, hacc => by
    obtain ⟨hfirst, hrest⟩ := List.pairwise_cons.1 h
    have hlt : ∀ q ∈ acc, q.1 < r.1 := fun q hq => hacc q hq r (List.mem_cons_self ..)
    rw [List.foldl_cons]
    split_ifs with hr
    · rw [setIndex_of_lt hlt, Ascending.foldl_setIndex hrest, List.filter_cons_of_pos hr,
        List.append_assoc]
      · rfl
      · intro q hq s hs
        rcases List.mem_append.1 hq with hq | hq
        · exact hacc q hq s (List.mem_cons_of_mem _ hs)
        · rw [List.mem_singleton.1 hq]
          exact hfirst s hs
    · rw [Ascending.foldl_setIndex hrest fun q hq s hs => hacc q hq s (List.mem_cons_of_mem _ hs),
        List.filter_cons_of_neg hr]

end Numbers

end Objects
