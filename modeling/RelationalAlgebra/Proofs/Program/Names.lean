import Mathlib.Data.List.Nodup
import Mathlib.Data.List.Perm.Subperm
import RelationalAlgebra.Program.Step
import RelationalAlgebra.Proofs.Name.Characters
/-!
# Names of steps

The letters of a number have the number as their value, so the names of steps are all different, and they
are valid names.  Among one more of them than there are names to avoid, one is not to be avoided.
-/

namespace RelationalAlgebra.Program

def lettersValue (cs : List Char) : Nat := cs.foldl (fun v c => v * 26 + (c.toNat - 97)) 0

theorem toNat_letter {d : Nat} (h : d < 26) : (Char.ofNat (97 + d)).toNat = 97 + d := by
  revert d
  decide

theorem isPart_letter {d : Nat} (h : d < 26) : Name.isPart (Char.ofNat (97 + d)) = true := by
  revert d
  decide

theorem lettersValue_letters (n : Nat) : lettersValue (letters n) = n := by
  induction n using letters.induct with
  | case1 n small =>
    rw [letters, if_pos small, lettersValue]
    simp [toNat_letter small]
  | case2 n large ih =>
    have last := toNat_letter (Nat.mod_lt n (by decide : 0 < 26))
    rw [letters, if_neg large, lettersValue, List.foldl_append, ← lettersValue, ih]
    simp only [List.foldl_cons, List.foldl_nil, last]
    omega

theorem isPart_letters (n : Nat) : ∀ c ∈ letters n, Name.isPart c = true := by
  induction n using letters.induct with
  | case1 n small =>
    rw [letters, if_pos small]
    exact List.forall_mem_singleton.mpr (isPart_letter small)
  | case2 n large ih =>
    rw [letters, if_neg large]
    refine List.forall_mem_append.mpr ⟨ih, List.forall_mem_singleton.mpr ?_⟩
    exact isPart_letter (Nat.mod_lt n (by decide))

theorem toList_stepName (n : Nat) :
    (stepName n).toList = ['o', 'p', 't', 'm', '_'] ++ letters n := by
  rw [stepName, String.toList_append, String.toList_ofList, String.toList_ofList]

theorem stepName_injective : Function.Injective stepName := by
  intro m n same
  have letters_eq : letters m = letters n := by
    have := congrArg String.toList same
    rw [toList_stepName, toList_stepName] at this
    exact List.append_cancel_left this
  rw [← lettersValue_letters m, letters_eq, lettersValue_letters]

theorem isValid_stepName (n : Nat) : Name.isValid (stepName n) = true := by
  -- no reserved word has an underscore
  have free : Name.reserved.contains (stepName n) = false := by
    have unlike : ∀ word ∈ Name.reserved, '_' ∉ word.toList := by decide
    by_contra reserved
    have mem : stepName n ∈ Name.reserved := by simpa using reserved
    refine unlike _ mem ?_
    rw [toList_stepName]
    simp
  have parts : (['p', 't', 'm', '_'] ++ letters n).all Name.isPart = true := by
    rw [List.all_append, List.all_eq_true.mpr (isPart_letters n)]
    rfl
  unfold Name.isValid
  rw [toList_stepName]
  change (Name.isStart 'o' && (['p', 't', 'm', '_'] ++ letters n).all Name.isPart &&
    !Name.reserved.contains (stepName n)) = true
  rw [parts, free]
  rfl

theorem freshNumber_spec (avoid : List String) (start : Nat) :
    start ≤ freshNumber avoid start ∧ stepName (freshNumber avoid start) ∉ avoid := by
  rw [freshNumber]
  cases found : (List.range' start (avoid.length + 1)).find? fun n => !avoid.contains (stepName n) with
  | some n =>
    have candidate := List.mem_range'_1.mp (List.mem_of_find?_eq_some found)
    have free := List.find?_some found
    exact ⟨candidate.1, by simpa using free⟩
  | none =>
    -- all candidates would be among the names to avoid, which are fewer
    have sub : (List.range' start (avoid.length + 1)).map stepName ⊆ avoid := by
      intro name hname
      obtain ⟨n, hn, rfl⟩ := List.mem_map.mp hname
      simpa using List.find?_eq_none.mp found n hn
    have nodup : ((List.range' start (avoid.length + 1)).map stepName).Nodup :=
      List.Nodup.map stepName_injective List.nodup_range'
    have le := (nodup.subperm sub).length_le
    rw [List.length_map, List.length_range'] at le
    omega

end RelationalAlgebra.Program
