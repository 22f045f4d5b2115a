import Crontab.Field.Set

/-! # The members of a field set

What each operation of a `FieldSet` does to its members.  The bits never show: a set
is known by its members (`isEmpty_iff`, `mem_toList`), adding and removing one changes
that one alone (`mem_insert?`, `mem_erase?`), and **the neighbours of a number are
the nearest members on either side** (`next?_eq_some_iff`, `prev?_eq_some_iff`).
-/

namespace Crontab.FieldSet

variable {s t : FieldSet} {n m : Nat}

/-! ### Members one by one -/

theorem mem_insert? (h : s.insert? m = .ok t) : n ∈ t ↔ n ∈ s ∨ n = m ∧ n < 64 := by
  unfold insert? at h
  split at h
  · cases h
    simp only [mem_def, BitVec.getLsbD_or, BitVec.getLsbD_twoPow, Bool.or_eq_true,
      Bool.and_eq_true, decide_eq_true_eq]
    grind
  · cases h

theorem mem_erase? (h : s.erase? m = .ok t) : n ∈ t ↔ n ∈ s ∧ n ≠ m := by
  unfold erase? at h
  split at h
  · cases h
    have hlt : s.bits.getLsbD n = true → n < 64 := BitVec.lt_of_getLsbD
    simp only [mem_def, BitVec.getLsbD_and, BitVec.getLsbD_not, BitVec.getLsbD_twoPow,
      Bool.and_eq_true, decide_eq_true_eq, Bool.not_eq_true', Bool.and_eq_false_iff,
      decide_eq_false_iff_not]
    grind
  · cases h

/-- A number is refused exactly when it lies out of bounds. -/
theorem insert?_refused_iff : (∃ reason, s.insert? n = .error reason) ↔ ¬ s.Bounds n := by
  unfold insert?
  split <;> simp_all

/-- A number that lies out of bounds cannot be taken out, whether or not it is a member. -/
theorem erase?_refused_iff : (∃ reason, s.erase? n = .error reason) ↔ ¬ s.Bounds n := by
  unfold erase?
  split <;> simp_all

theorem bounds_of_insert? (h : s.insert? n = .ok t) : s.Bounds n := by
  apply Classical.byContradiction
  intro hout
  obtain ⟨reason, hrefused⟩ := insert?_refused_iff.mpr hout
  rw [hrefused] at h
  cases h

theorem field_insert? (h : s.insert? n = .ok t) :
    t.field = s.field ∧ t.least = s.least ∧ t.greatest = s.greatest := by
  unfold insert? at h
  split at h
  · cases h
    exact ⟨rfl, rfl, rfl⟩
  · cases h

theorem field_erase? (h : s.erase? n = .ok t) :
    t.field = s.field ∧ t.least = s.least ∧ t.greatest = s.greatest := by
  unfold erase? at h
  split at h
  · cases h
    exact ⟨rfl, rfl, rfl⟩
  · cases h

/-- Every number of a list becomes a member. -/
theorem mem_insertAll? : ∀ {ns : List Nat} {s t : FieldSet}, s.insertAll? ns = .ok t →
    (n ∈ t ↔ n ∈ s ∨ n ∈ ns ∧ n < 64)
  | [], s, t, h => by
      cases h
      simp
  | m :: ns, s, t, h => by
      cases hm : s.insert? m with
      | error e =>
          rw [insertAll?, hm] at h
          cases h
      | ok u =>
          rw [insertAll?, hm] at h
          rw [mem_insertAll? (s := u) h, mem_insert? hm, List.mem_cons]
          grind

/-- A list of numbers within the bounds is never refused. -/
theorem exists_insertAll? : ∀ {ns : List Nat} {s : FieldSet}, (∀ m ∈ ns, s.Bounds m) →
    ∃ t, s.insertAll? ns = .ok t
  | [], s, _ => ⟨s, rfl⟩
  | m :: ns, s, h => by
      have hm : s.Bounds m := h m (List.mem_cons_self ..)
      obtain ⟨u, hu⟩ : ∃ u, s.insert? m = .ok u := ⟨_, by rw [insert?, if_pos hm]⟩
      have hb := field_insert? hu
      obtain ⟨t, ht⟩ := exists_insertAll? (s := u) fun k hk => by
        have := h k (List.mem_cons_of_mem _ hk)
        rwa [Bounds, hb.2.1, hb.2.2]
      exact ⟨t, by rw [insertAll?, hu]; exact ht⟩

/-! ### The set as a whole -/

theorem mem_toList : n ∈ s.toList ↔ s.Bounds n ∧ n ∈ s := by
  simp only [toList, List.mem_filter, List.mem_range'_1, decide_eq_true_eq, Bounds]
  constructor
  · rintro ⟨h, hn⟩
    exact ⟨by omega, hn⟩
  · rintro ⟨h, hn⟩
    exact ⟨by omega, hn⟩

/-- The members are listed in ascending order, each of them once. -/
theorem pairwise_toList : s.toList.Pairwise (· < ·) :=
  List.Pairwise.filter _ List.pairwise_lt_range'

theorem isEmpty_iff : s.isEmpty = true ↔ ∀ n, n ∉ s := by
  simp only [isEmpty, beq_iff_eq, mem_def]
  constructor
  · intro h n
    simp [h]
  · intro h
    exact BitVec.eq_of_getLsbD_eq fun i _ => by simpa using h i

/-! ### Neighbours -/

/-- The lowest bit of a word that is set. -/
theorem ctz_eq_iff {x : BitVec 64} (hx : x ≠ 0) :
    x.ctz.toNat = n ↔ x.getLsbD n = true ∧ ∀ m, x.getLsbD m = true → n ≤ m := by
  have hset := BitVec.getLsbD_true_ctz_of_ne_zero hx
  have hlow : ∀ m, x.getLsbD m = true → x.ctz.toNat ≤ m := by
    intro m hm
    apply Nat.le_of_not_lt
    intro hlt
    rw [BitVec.getLsbD_false_of_lt_ctz hlt] at hm
    cases hm
  constructor
  · rintro rfl
    exact ⟨hset, hlow⟩
  · rintro ⟨hn, hmin⟩
    exact Nat.le_antisymm (hlow n hn) (hmin _ hset)

/-- The highest bit of a word that is set. -/
theorem clz_eq_iff {x : BitVec 64} (hx : x ≠ 0) :
    63 - x.clz.toNat = n ↔ x.getLsbD n = true ∧ ∀ m, x.getLsbD m = true → m ≤ n := by
  have hset := BitVec.getLsbD_true_clz_of_ne_zero (by decide) hx
  have hhigh : ∀ m, x.getLsbD m = true → m ≤ 63 - x.clz.toNat := by
    intro m hm
    have hlt : m < 64 - x.clz.toNat := by
      apply Nat.lt_of_not_le
      intro hle
      have hx' : x.toNat < 2 ^ m :=
        Nat.lt_of_lt_of_le BitVec.toNat_lt_two_pow_sub_clz (Nat.pow_le_pow_right (by decide) hle)
      rw [BitVec.getLsbD, Nat.testBit_lt_two_pow hx'] at hm
      cases hm
    omega
  constructor
  · rintro rfl
    exact ⟨hset, hhigh⟩
  · rintro ⟨hn, hmax⟩
    exact Nat.le_antisymm (hmax _ hset) (hhigh n hn)

/-- The bits of a word from a number on. -/
theorem getLsbD_above {target : Int} {m : Nat} :
    (s.bits &&& (BitVec.allOnes 64 <<< target.toNat)).getLsbD m = true ↔ m ∈ s ∧ target ≤ m := by
  have hlt : s.bits.getLsbD m = true → m < 64 := BitVec.lt_of_getLsbD
  simp only [BitVec.getLsbD_and, BitVec.getLsbD_shiftLeft, BitVec.getLsbD_allOnes,
    Bool.and_eq_true, mem_def, decide_eq_true_eq, Bool.not_eq_true', decide_eq_false_iff_not]
  constructor
  · rintro ⟨hm, ⟨_, hge⟩, _⟩
    exact ⟨hm, by omega⟩
  · rintro ⟨hm, hge⟩
    have := hlt hm
    exact ⟨hm, ⟨this, by omega⟩, by omega⟩

/-- The bits of a word up to a number. -/
theorem getLsbD_below {target : Int} (ht : 0 ≤ target) {m : Nat} :
    (s.bits &&& (BitVec.allOnes 64 >>> (63 - min target.toNat 63))).getLsbD m = true ↔
      m ∈ s ∧ m ≤ target := by
  have hlt : s.bits.getLsbD m = true → m < 64 := BitVec.lt_of_getLsbD
  simp only [BitVec.getLsbD_and, BitVec.getLsbD_ushiftRight, BitVec.getLsbD_allOnes,
    Bool.and_eq_true, mem_def, decide_eq_true_eq]
  constructor
  · rintro ⟨hm, hle⟩
    exact ⟨hm, by omega⟩
  · rintro ⟨hm, hle⟩
    have := hlt hm
    exact ⟨hm, by omega⟩

theorem next?_eq_some_iff {target : Int} :
    s.next? target = some n ↔ (n ∈ s ∧ target ≤ n) ∧ ∀ m, m ∈ s ∧ target ≤ m → n ≤ m := by
  unfold next?
  split
  · rename_i hbig
    simp only [reduceCtorEq, false_iff]
    rintro ⟨⟨hn, ht⟩, _⟩
    have := lt_of_mem hn
    omega
  · extract_lets above
    split
    · rename_i hz
      simp only [reduceCtorEq, false_iff]
      rintro ⟨hn, _⟩
      rw [← getLsbD_above, show _ &&& _ = above from rfl, hz] at hn
      simp at hn
    · rename_i hz
      rw [Option.some_inj, ctz_eq_iff hz, getLsbD_above]
      simp only [above, getLsbD_above]

theorem next?_eq_none_iff {target : Int} :
    s.next? target = none ↔ ∀ m, ¬ (m ∈ s ∧ target ≤ m) := by
  unfold next?
  split
  · rename_i hbig
    simp only [true_iff]
    rintro m ⟨hm, ht⟩
    have := lt_of_mem hm
    omega
  · extract_lets above
    split
    · rename_i hz
      simp only [true_iff]
      intro m hm
      rw [← getLsbD_above, show _ &&& _ = above from rfl, hz] at hm
      simp at hm
    · rename_i hz
      simp only [reduceCtorEq, false_iff]
      intro h
      exact h above.ctz.toNat (getLsbD_above.mp (BitVec.getLsbD_true_ctz_of_ne_zero hz))

theorem prev?_eq_some_iff {target : Int} :
    s.prev? target = some n ↔ (n ∈ s ∧ n ≤ target) ∧ ∀ m : Nat, m ∈ s ∧ m ≤ target → m ≤ n := by
  unfold prev?
  split
  · simp only [reduceCtorEq, false_iff]
    rintro ⟨⟨_, ht⟩, _⟩
    omega
  · rename_i hneg
    have hpos : 0 ≤ target := by omega
    extract_lets below
    split
    · rename_i hz
      simp only [reduceCtorEq, false_iff]
      rintro ⟨hn, _⟩
      rw [← getLsbD_below hpos, show _ &&& _ = below from rfl, hz] at hn
      simp at hn
    · rename_i hz
      rw [Option.some_inj, clz_eq_iff hz, getLsbD_below hpos]
      simp only [below, getLsbD_below hpos]

theorem prev?_eq_none_iff {target : Int} :
    s.prev? target = none ↔ ∀ m : Nat, ¬ (m ∈ s ∧ m ≤ target) := by
  unfold prev?
  split
  · simp only [true_iff]
    rintro m ⟨_, ht⟩
    omega
  · rename_i hneg
    have hpos : 0 ≤ target := by omega
    extract_lets below
    split
    · rename_i hz
      simp only [true_iff]
      intro m hm
      rw [← getLsbD_below hpos, show _ &&& _ = below from rfl, hz] at hm
      simp at hm
    · rename_i hz
      simp only [reduceCtorEq, false_iff]
      intro h
      exact h (63 - below.clz.toNat)
        ((getLsbD_below hpos).mp (BitVec.getLsbD_true_clz_of_ne_zero (by decide) hz))

end Crontab.FieldSet
