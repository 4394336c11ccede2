import Mathlib.Data.List.Nodup
import Mathlib.Data.List.Perm.Subperm
import Protoscribe.Compile.FreeName

/-!
# `Protoscribe.Proofs.Compile.FreeName`: numbered names are found

Candidates that are numbered are all different, so that a finite list of taken names cannot hold as
many of them as are tried (`exists_not_mem_numbered`). Hence the search ends at a free candidate,
and all candidates before it are taken (`firstFree_spec`).
-/

set_option autoImplicit false

namespace Protoscribe.Compile

/-- The text of a number tells the number. -/
theorem toString_injective : Function.Injective (toString : Nat → String) := by
  intro m n h
  rw [Nat.toString_eq_ofList_toDigits, Nat.toString_eq_ofList_toDigits, String.ofList_inj] at h
  rw [← Nat.ofDigitChars_ten_toDigits (n := m), h, Nat.ofDigitChars_ten_toDigits]

/-- The name that is free in the end is one of those that were tried. -/
theorem exists_firstFree_eq (taken : String → Bool) (make : Nat → String) (fuel n : Nat) :
    ∃ m, firstFree taken make fuel n = make m := by
  induction fuel generalizing n with
  | zero => exact ⟨n, rfl⟩
  | succ fuel ih =>
    unfold firstFree
    split
    · exact ih (n + 1)
    · exact ⟨n, rfl⟩

/-- The search stops at the first free candidate, when there is one in its reach. -/
theorem firstFree_eq_of_free {taken : String → Bool} {make : Nat → String} {fuel n : Nat}
    (h : ∃ m, n ≤ m ∧ m ≤ n + fuel ∧ taken (make m) = false) :
    ∃ m, n ≤ m ∧ firstFree taken make fuel n = make m ∧ taken (make m) = false ∧
      ∀ k, n ≤ k → k < m → taken (make k) = true := by
  induction fuel generalizing n with
  | zero =>
    obtain ⟨m, hle, hlast, hfree⟩ := h
    obtain rfl : m = n := by omega
    exact ⟨m, hle, rfl, hfree, fun k hk hlt => by omega⟩
  | succ fuel ih =>
    unfold firstFree
    split
    · next htaken =>
      -- the candidate is passed over, and it was not the free one
      obtain ⟨m, hle, hlast, hfree⟩ := h
      have hne : m ≠ n := by
        rintro rfl
        rw [hfree] at htaken
        cases htaken
      obtain ⟨found, hfound, heq, hunused, hbefore⟩ :=
        ih (n := n + 1) ⟨m, by omega, by omega, hfree⟩
      refine ⟨found, by omega, heq, hunused, fun k hk hlt => ?_⟩
      rcases Nat.lt_or_eq_of_le hk with hk | rfl
      · exact hbefore k hk hlt
      · exact htaken
    · next hfree => exact ⟨n, Nat.le_refl n, rfl, by simpa using hfree, fun k hk hlt => by omega⟩

/-- Among more candidates than names are taken, one is free. -/
theorem exists_not_mem_numbered {make : Nat → String} (hmake : Function.Injective make)
    (names : List String) (n : Nat) : ∃ m, n ≤ m ∧ m ≤ n + names.length ∧ make m ∉ names := by
  by_contra hnone
  simp only [not_exists, not_and, not_not] at hnone
  have hcandidates : ((List.range' n (names.length + 1)).map make).Subperm names := by
    refine List.subperm_of_subset ((List.nodup_range' 1).map hmake) fun name hname => ?_
    obtain ⟨m, hm, rfl⟩ := List.mem_map.mp hname
    obtain ⟨hle, hlt⟩ := List.mem_range'_1.mp hm
    exact hnone m hle (by omega)
  have hlength := hcandidates.length_le
  rw [List.length_map, List.length_range'] at hlength
  omega

/-- A search through as many numbered names as are taken ends at the first free one. -/
theorem firstFree_spec (names : List String) {make : Nat → String}
    (hmake : Function.Injective make) (n : Nat) :
    ∃ m, n ≤ m ∧ firstFree names.contains make names.length n = make m ∧ make m ∉ names ∧
      ∀ k, n ≤ k → k < m → make k ∈ names := by
  obtain ⟨m, hle, hlast, hmem⟩ := exists_not_mem_numbered hmake names n
  have hfree : names.contains (make m) = false := by simpa using hmem
  obtain ⟨found, hfound, heq, hunused, hbefore⟩ := firstFree_eq_of_free ⟨m, hle, hlast, hfree⟩
  exact ⟨found, hfound, heq, by simpa using hunused,
    fun k hk hlt => by simpa using hbefore k hk hlt⟩

end Protoscribe.Compile
