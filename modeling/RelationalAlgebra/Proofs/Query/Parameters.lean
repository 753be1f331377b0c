import RelationalAlgebra.Proofs.Name.Entries
import RelationalAlgebra.Proofs.Outcome
import RelationalAlgebra.Proofs.Name.Characters
import RelationalAlgebra.Proofs.Text.Pieces
import RelationalAlgebra.Query.Parameter
import RelationalAlgebra.Query.Tree
/-!
# Parameters that are written and read

A projection or a renaming that is written is read as what it was, and what is read is made of valid
names.
-/

namespace RelationalAlgebra

theorem Name.trim_of_isValid {name : String} (h : Name.isValid name = true) :
    Text.trim name.toList = name.toList :=
  Text.trim_of_not_blank fun c hc => Name.isBlank_of_isPart (Name.isPart_of_isValid h c hc)

namespace Query

/-! ## Projections -/

theorem parts_intercalate {texts : List String} (ne : texts ≠ [])
    (comma : ∀ text ∈ texts, ',' ∉ text.toList)
    (blanks : ∀ text ∈ texts, Text.trim text.toList = text.toList) :
    parts (String.intercalate "," texts) = texts.map String.toList := by
  have separator : ",".toList = [','] := by decide
  have pieces : Text.pieces ',' ([','].intercalate (texts.map String.toList)) =
      texts.map String.toList := by
    refine Text.pieces_intercalate (by simpa using ne) fun part hpart => ?_
    obtain ⟨text, htext, rfl⟩ := List.mem_map.mp hpart
    exact comma text htext
  rw [parts, String.toList_intercalate, separator, pieces, List.map_map]
  exact List.map_congr_left blanks

theorem parts_ne_nil (parameter : String) : parts parameter ≠ [] := by
  simpa [parts] using Text.pieces_ne_nil ',' parameter.toList

namespace Projection

theorem collect_eq_ok_iff {parameter : String} {ps : List (List Char)} {names result : List String} :
    collect parameter names ps = .ok result ↔
      (∀ part ∈ ps, Name.isValid (String.ofList part) = true) ∧
        result = (ps.map String.ofList).foldl add names := by
  induction ps generalizing names with
  | nil =>
    rw [collect]
    constructor
    · intro h
      exact ⟨by simp, (Except.ok.inj h).symm⟩
    · intro h
      rw [h.2]
      rfl
  | cons part ps ih =>
    rw [collect, List.forall_mem_cons]
    by_cases valid : Name.isValid (String.ofList part) = true
    · simp only [valid, if_true, ih, true_and]
      rfl
    · simp [valid]

theorem mem_add {names : List String} {name n : String} :
    n ∈ add names name ↔ n ∈ names ∨ n = name := by
  unfold add
  split
  · next h =>
    have mem : name ∈ names := by simpa using h
    refine ⟨.inl, ?_⟩
    rintro (h | rfl)
    · exact h
    · exact mem
  · simp

theorem nodup_add {names : List String} (h : names.Nodup) (name : String) : (add names name).Nodup := by
  unfold add
  split
  · exact h
  · next new =>
    have new : name ∉ names := by simpa using new
    refine List.nodup_append.mpr ⟨h, List.nodup_singleton _, ?_⟩
    rintro a ha b hb rfl
    exact new (List.mem_singleton.mp hb ▸ ha)

theorem mem_foldl_add {names new : List String} {n : String} :
    n ∈ new.foldl add names ↔ n ∈ names ∨ n ∈ new := by
  induction new generalizing names with
  | nil => simp
  | cons m ms ih => rw [List.foldl_cons, ih, mem_add, List.mem_cons, or_assoc]

theorem nodup_foldl_add {names : List String} (h : names.Nodup) (new : List String) :
    (new.foldl add names).Nodup := by
  induction new generalizing names with
  | nil => exact h
  | cons m ms ih => exact ih (nodup_add h m)

theorem foldl_add_of_nodup {names new : List String} (h : (names ++ new).Nodup) :
    new.foldl add names = names ++ new := by
  induction new generalizing names with
  | nil => simp
  | cons m ms ih =>
    have fresh : names.contains m = false := by
      have := (List.nodup_append.mp h).2.2
      simp only [List.contains_eq_mem, decide_eq_false_iff_not]
      exact fun hm => this m hm m (List.mem_cons_self ..) rfl
    rw [List.foldl_cons, add, fresh, if_neg (by simp), ih (by simpa using h)]
    simp

/-- The names that a projection reads are valid, different, and not none. -/
theorem ofText?_eq_ok {text : String} {names : List String} (h : ofText? text = .ok names) :
    names ≠ [] ∧ names.Nodup ∧ ∀ n ∈ names, Name.isValid n = true := by
  obtain ⟨valid, rfl⟩ := collect_eq_ok_iff.mp h
  refine ⟨?_, nodup_foldl_add List.nodup_nil _, fun n hn => ?_⟩
  · obtain ⟨part, hpart⟩ := List.exists_mem_of_ne_nil _ (parts_ne_nil text)
    refine List.ne_nil_of_mem (a := String.ofList part) (mem_foldl_add.mpr (.inr ?_))
    exact List.mem_map_of_mem hpart
  · rcases mem_foldl_add.mp hn with hn | hn
    · cases hn
    · obtain ⟨part, hpart, rfl⟩ := List.mem_map.mp hn
      exact valid part hpart

theorem ofText?_write {names : List String} (ne : names ≠ [])
    (valid : ∀ n ∈ names, Name.isValid n = true) :
    ofText? (write names) = .ok (names.foldl add []) := by
  have read : parts (write names) = names.map String.toList :=
    parts_intercalate ne (fun n hn => Name.notMem_of_isValid (valid n hn) (by decide))
      (fun n hn => Name.trim_of_isValid (valid n hn))
  have back : (names.map String.toList).map String.ofList = names := by simp
  rw [ofText?, read, collect_eq_ok_iff, back]
  refine ⟨fun part hpart => ?_, rfl⟩
  obtain ⟨n, hn, rfl⟩ := List.mem_map.mp hpart
  rw [String.ofList_toList]
  exact valid n hn

end Projection

/-! ## All parameters of a query -/

namespace Tree

/-- What holds for all names of relations in a query, and for all of its parameters. -/
def Every (name : String → Prop) (parameter : Unary → String → Prop) : Tree → Prop
  | .relation n => name n
  | .unary op text operand => parameter op text ∧ operand.Every name parameter
  | .binary _ left right => left.Every name parameter ∧ right.Every name parameter

variable {name : String → Prop} {parameter : Unary → String → Prop} {t : Tree}

instance decidableEvery [DecidablePred name] [∀ op, DecidablePred (parameter op)] :
    (t : Tree) → Decidable (t.Every name parameter)
  | .relation n => inferInstanceAs (Decidable (name n))
  | .unary op text operand =>
    have := decidableEvery operand
    inferInstanceAs (Decidable (parameter op text ∧ operand.Every name parameter))
  | .binary _ left right =>
    have := decidableEvery left
    have := decidableEvery right
    inferInstanceAs (Decidable (left.Every name parameter ∧ right.Every name parameter))

theorem Every.imp {name' : String → Prop} {parameter' : Unary → String → Prop}
    (h : t.Every name parameter) (names : ∀ n, name n → name' n)
    (parameters : ∀ op text, parameter op text → parameter' op text) : t.Every name' parameter' := by
  induction t with
  | relation n => exact names n h
  | unary op text operand ih => exact ⟨parameters op text h.1, ih h.2⟩
  | binary op a b iha ihb => exact ⟨iha h.1, ihb h.2⟩

theorem Every.and {name' : String → Prop} {parameter' : Unary → String → Prop}
    (h : t.Every name parameter) (h' : t.Every name' parameter') :
    t.Every (fun n => name n ∧ name' n) (fun op text => parameter op text ∧ parameter' op text) := by
  induction t with
  | relation n => exact ⟨h, h'⟩
  | unary op text operand ih => exact ⟨⟨h.1, h'.1⟩, ih h.2 h'.2⟩
  | binary op a b iha ihb => exact ⟨iha h.1 h'.1, ihb h.2 h'.2⟩

theorem every_iff : t.Every name parameter ↔
    t.Every (fun _ => True) parameter ∧ ∀ n ∈ t.leaves, name n := by
  induction t with
  | relation n => simp [Every, leaves]
  | unary op text operand ih => rw [Every, Every, leaves, ih, and_assoc]
  | binary op a b iha ihb =>
    rw [Every, Every, leaves, iha, ihb, List.forall_mem_append, and_and_and_comm]

end Tree

end Query

namespace Renaming

open Query

/-! ## Renamings -/

def Valid (r : Renaming) : Prop :=
  ∀ old new, r.get? old = some new → Name.isValid old = true ∧ Name.isValid new = true

theorem valid_collect {r result : Renaming} (valid : r.Valid) {ps : List (List Char)}
    (h : collect r ps = .ok result) : result.Valid := by
  induction ps generalizing r with
  | nil =>
    obtain rfl := Except.ok.inj h
    exact valid
  | cons part ps ih =>
    rw [collect] at h
    split at h
    · cases h
    · next old new _ =>
      simp only at h
      split at h
      · next names =>
        split at h
        · cases h
        · refine ih (fun o n hn => ?_) h
          rw [Name.Map.get?_insert] at hn
          obtain ⟨validOld, validNew⟩ := Bool.and_eq_true_iff.mp names
          by_cases ho : o = String.ofList (Text.trim old)
          · rw [if_pos ho] at hn
            rw [ho, ← Option.some.inj hn]
            exact ⟨validOld, validNew⟩
          · rw [if_neg ho] at hn
            exact valid o n hn
      · cases h

theorem valid_of_ofText? {text : String} {r : Renaming} (h : ofText? text = .ok r) : r.Valid := by
  refine valid_collect (fun old new hn => ?_) h
  rw [Name.Map.get?_empty] at hn
  cases hn

def entry (e : String × String) : String := e.1 ++ arrow.toString ++ e.2

theorem toList_entry (e : String × String) : (entry e).toList = e.1.toList ++ arrow :: e.2.toList := by
  simp [entry, String.toList_append]

theorem isPart_or_arrow_of_entry {e : String × String}
    (valid : Name.isValid e.1 = true ∧ Name.isValid e.2 = true) :
    ∀ c ∈ (entry e).toList, Name.isPart c = true ∨ c = arrow := by
  intro c hc
  rw [toList_entry] at hc
  rcases List.mem_append.mp hc with hc | hc
  · exact .inl (Name.isPart_of_isValid valid.1 c hc)
  · rcases List.mem_cons.mp hc with hc | hc
    · exact .inr hc
    · exact .inl (Name.isPart_of_isValid valid.2 c hc)

theorem Valid.entries {r : Renaming} (valid : r.Valid) :
    ∀ e ∈ r.entries, Name.isValid e.1 = true ∧ Name.isValid e.2 = true :=
  fun e he => valid e.1 e.2 (Name.Map.get?_eq_some_iff.mpr he)

theorem collect_entries {r : Renaming} {entries : List (String × String)}
    (valid : ∀ e ∈ entries, Name.isValid e.1 = true ∧ Name.isValid e.2 = true)
    (ascending : Name.Ascending (r.entries ++ entries)) :
    ∃ result, collect r (entries.map fun e => (entry e).toList) = .ok result ∧
      result.entries = r.entries ++ entries := by
  induction entries generalizing r with
  | nil => exact ⟨r, rfl, by simp⟩
  | cons e es ih =>
    obtain ⟨old, new⟩ := e
    obtain ⟨validOld, validNew⟩ := valid (old, new) (List.mem_cons_self ..)
    have cut : Text.cutAt arrow (entry (old, new)).toList = some (old.toList, new.toList) := by
      rw [toList_entry]
      exact Text.cutAt_append (Name.notMem_of_isValid validOld (by decide)) _
    have less : ∀ e ∈ r.entries, e.1 < old := fun e he =>
      (List.pairwise_append.mp ascending).2.2 e he (old, new) (List.mem_cons_self ..)
    have fresh : r.contains old = false := by
      rw [← Bool.not_eq_true, Name.Map.contains_iff]
      intro mem
      obtain ⟨e, he, rfl⟩ := List.mem_map.mp mem
      exact String.lt_irrefl _ (less e he)
    have inserted : (r.insert old new).entries = r.entries ++ [(old, new)] :=
      Name.insertEntry_append less
    obtain ⟨result, hresult, entries_eq⟩ := @ih (r.insert old new)
      (fun e he => valid e (List.mem_cons_of_mem _ he)) (by rw [inserted]; simpa using ascending)
    refine ⟨result, ?_, by rw [entries_eq, inserted]; simp⟩
    rw [List.map_cons, collect, cut]
    simp only [Name.trim_of_isValid validOld, Name.trim_of_isValid validNew, String.ofList_toList,
      validOld, validNew, fresh, Bool.and_self, if_true]
    exact hresult

theorem ofText?_write {r : Renaming} (valid : r.Valid) (ne : r.isEmpty = false) :
    ofText? r.write = .ok r := by
  have entries_ne : r.entries ≠ [] := by
    rintro h
    rw [Name.Map.isEmpty, h] at ne
    cases ne
  have isPart (e : String × String) (he : e ∈ r.entries) (c : Char) (hc : c ∈ (entry e).toList) :
      Name.isPart c = true ∨ c = arrow := isPart_or_arrow_of_entry (valid.entries e he) c hc
  have read : parts r.write = (r.entries.map entry).map String.toList := by
    refine parts_intercalate (by simpa using entries_ne) ?_ ?_
    · intro text htext comma
      obtain ⟨e, he, rfl⟩ := List.mem_map.mp htext
      rcases isPart e he _ comma with h | h
      · revert h
        decide
      · revert h
        decide
    · intro text htext
      obtain ⟨e, he, rfl⟩ := List.mem_map.mp htext
      refine Text.trim_of_not_blank fun c hc => ?_
      rcases isPart e he c hc with h | rfl
      · exact Name.isBlank_of_isPart h
      · decide
  obtain ⟨result, hresult, entries_eq⟩ := @collect_entries Name.Map.empty r.entries
    valid.entries r.ascending
  rw [ofText?, read, List.map_map]
  refine hresult.trans (congrArg _ (Name.Map.ext ?_))
  rw [entries_eq]
  rfl

theorem isEmpty_insert (r : Renaming) (old new : String) : (r.insert old new).isEmpty = false := by
  by_contra isEmpty
  have nothing := Name.Map.isEmpty_iff.mp (Bool.not_eq_false _ ▸ isEmpty) old
  rw [Name.Map.get?_insert, if_pos rfl] at nothing
  cases nothing

/-- Reading adds entries and takes none away. -/
theorem isEmpty_collect {r result : Renaming} {ps : List (List Char)} (h : collect r ps = .ok result)
    (some : ps ≠ [] ∨ r.isEmpty = false) : result.isEmpty = false := by
  induction ps generalizing r with
  | nil =>
    obtain rfl := Except.ok.inj h
    exact some.resolve_left (by simp)
  | cons part ps ih =>
    rw [collect] at h
    split at h
    · cases h
    · next old new _ =>
      simp only at h
      split at h
      · split at h
        · cases h
        · exact ih h (.inr (isEmpty_insert r _ _))
      · cases h

theorem isEmpty_of_ofText? {text : String} {r : Renaming} (h : ofText? text = .ok r) :
    r.isEmpty = false := isEmpty_collect h (.inl (parts_ne_nil text))

def Canonical (r : Renaming) : Prop := r.isEmpty = false ∧ r.keys.Nodup ∧ r.Valid

end Renaming

/-! ## Reading and writing -/

namespace Query

/-- A reader and a writer that invert each other on the values of some form: such a value is written as a
text that is read as it, and what is read, of any text, has this form and is read again when it is written. -/
structure Codec {α : Type} (ofText? : String → Except ParseFault α) (write : α → String)
    (Canonical : α → Prop) : Prop where
  ofText?_write : ∀ a, Canonical a → ofText? (write a) = .ok a
  canonical : ∀ text a, ofText? text = .ok a → Canonical a
  reread : ∀ text a, ofText? text = .ok a → ofText? (write a) = .ok a

theorem Codec.of_canonical {α : Type} {ofText? : String → Except ParseFault α} {write : α → String}
    {Canonical : α → Prop} (written : ∀ a, Canonical a → ofText? (write a) = .ok a)
    (canonical : ∀ text a, ofText? text = .ok a → Canonical a) : Codec ofText? write Canonical :=
  ⟨written, canonical, fun text a h => written a (canonical text a h)⟩

def Projection.Canonical (names : List String) : Prop :=
  names ≠ [] ∧ names.Nodup ∧ ∀ n ∈ names, Name.isValid n = true

theorem parameter_codecs :
    Codec Projection.ofText? Projection.write Projection.Canonical ∧
      Codec Renaming.ofText? Renaming.write Renaming.Canonical := by
  constructor
  · refine .of_canonical ?_ fun text names => Projection.ofText?_eq_ok
    rintro names ⟨ne, nodup, valid⟩
    rw [Projection.ofText?_write ne valid, Projection.foldl_add_of_nodup (by simpa using nodup)]
    rfl
  · refine .of_canonical ?_ fun text r h => ?_
    · rintro r ⟨ne, -, valid⟩
      exact Renaming.ofText?_write valid ne
    · exact ⟨Renaming.isEmpty_of_ofText? h, r.nodup_keys, Renaming.valid_of_ofText? h⟩

end Query

end RelationalAlgebra
