import RelationalAlgebra.Proofs.Environment
import RelationalAlgebra.Proofs.Query.Predicates
import RelationalAlgebra.Proofs.Query.Printing
import RelationalAlgebra.Proofs.Rewrite.Parameters
/-!
# Optimized queries that are printed and read

What the optimizer makes of a query that has been read is printed as a text that is read as the same query.
The predicates that the rules put together have never been parameters of a text; that they end where they are
printed to end is an invariant that all of the rules keep.
-/

namespace RelationalAlgebra

namespace Query

open Token (Whole isComplete)

/-! ## Lists that are written -/

theorem isComplete_of_name {n : String} (valid : Name.isValid n = true) {front : List Char}
    (ends : front.reverse.head?.any Name.isPart = false) :
    isComplete (front ++ n.toList).reverse = true := by
  obtain ⟨c, cs, heq, -, -⟩ := Name.exists_cons_of_isValid valid
  have nonempty : n.toList ≠ [] := by simp [heq]
  have before : front.reverse.takeWhile Name.isPart = [] := Token.takeWhile_append_of_head ends []
  have free : ["and", "or", "not"].contains n = false := by
    have others := Name.free_of_isValid valid
    simp only [Name.reserved, List.contains_eq_mem, decide_eq_false_iff_not, List.mem_cons,
      List.not_mem_nil, or_false, not_or] at others ⊢
    exact ⟨others.1, others.2.1, others.2.2.1⟩
  rw [List.reverse_append, Predicate.isComplete_word nonempty (Name.isPart_of_isValid valid), before,
    List.append_nil, List.reverse_reverse, String.ofList_toList, free]
  rfl

/-- The last of the texts between commas, and what stands before it. -/
theorem exists_last_intercalate {texts : List String} (ne : texts ≠ []) :
    ∃ front, ∃ last ∈ texts, (String.intercalate "," texts).toList = front ++ last.toList ∧
      front.reverse.head?.any Name.isPart = false ∧
      ∀ c ∈ front, c = ',' ∨ ∃ text ∈ texts, c ∈ text.toList := by
  induction texts with
  | nil => exact absurd rfl ne
  | cons text texts ih =>
    cases texts with
    | nil => exact ⟨[], text, List.mem_singleton_self text, by simp, rfl, by simp⟩
    | cons next texts =>
      obtain ⟨front, last, mem, heq, ends, chars⟩ := ih (List.cons_ne_nil next texts)
      refine ⟨text.toList ++ ',' :: front, last, List.mem_cons_of_mem _ mem, ?_, ?_, ?_⟩
      · rw [String.intercalate_cons_cons, String.toList_append, String.toList_append, heq]
        simp
      · cases front using List.reverseRecOn with
        | nil => simp [show Name.isPart ',' = false by decide]
        | append_singleton front c => simpa using ends
      · intro c hc
        rcases List.mem_append.mp hc with hc | hc
        · exact .inr ⟨text, List.mem_cons_self .., hc⟩
        · rcases List.mem_cons.mp hc with rfl | hc
          · exact .inl rfl
          · refine (chars c hc).imp_right fun ⟨other, hother, hc⟩ => ?_
            exact ⟨other, List.mem_cons_of_mem _ hother, hc⟩

def IsListed (c : Char) : Prop := Name.isPart c = true ∨ c = ',' ∨ c = arrow

theorem plain_of_isListed {c : Char} (h : IsListed c) :
    Text.isBlank c = false ∧ c ≠ '(' ∧ c ≠ ')' ∧ c ≠ '\'' ∧ c ≠ '"' := by
  rcases h with part | rfl | rfl
  · exact ⟨Name.isBlank_of_isPart part, Name.plain_of_isPart part⟩
  · decide
  · decide

theorem whole_of_isListed {front : List Char} {n : String} (valid : Name.isValid n = true)
    (ends : front.reverse.head?.any Name.isPart = false) (listed : ∀ c ∈ front, IsListed c) :
    Whole (front ++ n.toList) ∧ Text.Trimmed (front ++ n.toList) := by
  have all : ∀ c ∈ front ++ n.toList, IsListed c := by
    intro c hc
    rcases List.mem_append.mp hc with hc | hc
    · exact listed c hc
    · exact .inl (Name.isPart_of_isValid valid c hc)
  have blank : ∀ c ∈ front ++ n.toList, Text.isBlank c = false := fun c hc =>
    (plain_of_isListed (all c hc)).1
  refine ⟨⟨?_, isComplete_of_name valid ends⟩, Text.trimmed_of_not_blank blank⟩
  exact Token.skim_of_plain (fun c hc => (plain_of_isListed (all c hc)).2) 0 []

theorem printable_write_projection {names : List String} (ne : names ≠ [])
    (valid : ∀ n ∈ names, Name.isValid n = true) : Printable .projection (Projection.write names) := by
  obtain ⟨front, last, mem, heq, ends, chars⟩ := exists_last_intercalate ne
  have listed : ∀ c ∈ front, IsListed c := by
    intro c hc
    rcases chars c hc with rfl | ⟨n, hn, hc⟩
    · exact .inr (.inl rfl)
    · exact .inl (Name.isPart_of_isValid (valid n hn) c hc)
  obtain ⟨whole, trimmed⟩ := whole_of_isListed (valid last mem) ends listed
  rw [← heq] at whole trimmed
  refine ⟨whole, trimmed, ?_⟩
  rw [Tree.checkParameter, Projection.ofText?_write ne valid]
  rfl

theorem printable_write_renaming {map : Renaming} (valid : map.Valid) (some : map.isEmpty = false) :
    Printable .rename map.write := by
  have ne : map.entries.map Renaming.entry ≠ [] := by
    simpa [Name.Map.isEmpty] using some
  obtain ⟨front, last, mem, heq, ends, chars⟩ := exists_last_intercalate ne
  obtain ⟨e, he, rfl⟩ := List.mem_map.mp mem
  have listedEntry : ∀ e ∈ map.entries, ∀ c ∈ (Renaming.entry e).toList, IsListed c := fun e he c hc =>
    (Renaming.isPart_or_arrow_of_entry (valid.entries e he) c hc).imp_right .inr
  have listed : ∀ c ∈ front ++ (e.1.toList ++ [arrow]), IsListed c := by
    intro c hc
    rcases List.mem_append.mp hc with hc | hc
    · rcases chars c hc with rfl | ⟨text, htext, hc⟩
      · exact .inr (.inl rfl)
      · obtain ⟨e, he, rfl⟩ := List.mem_map.mp htext
        exact listedEntry e he c hc
    · refine listedEntry e he c ?_
      rw [Renaming.toList_entry]
      simp only [List.mem_append, List.mem_cons, List.not_mem_nil, or_false] at hc ⊢
      exact hc.imp_right .inl
  obtain ⟨whole, trimmed⟩ := whole_of_isListed (valid.entries e he).2 (by simp; decide) listed
  have write : map.write.toList = front ++ (e.1.toList ++ [arrow]) ++ e.2.toList := by
    rw [Renaming.toList_entry] at heq
    rw [show map.write = String.intercalate "," (map.entries.map Renaming.entry) from rfl, heq]
    simp
  rw [← write] at whole trimmed
  refine ⟨whole, trimmed, ?_⟩
  rw [Tree.checkParameter, Renaming.ofText?_write valid some]
  rfl

end Query

namespace Rewrite

open Query (Tree Unary Printable)
open Predicate (Separated Solid)

/-! ## Parameters that the rules make -/

/-- A parameter that can be printed; in a predicate moreover no number touches a connective. -/
def Lasting (op : Unary) (text : String) : Prop :=
  match op with
  | .selection => Solid text.toList
  | .projection | .rename => Printable op text

theorem Lasting.printable {op : Unary} {text : String} (h : Lasting op text) : Printable op text := by
  cases op with
  | selection =>
    have solid : Solid text.toList := h
    have nonempty : text ≠ "" := by
      rintro rfl
      exact solid.ne_nil rfl
    exact ⟨solid.whole, solid.trimmed, if_neg nonempty⟩
  | projection => exact h
  | rename => exact h

theorem closed_lasting : Closed Lasting where
  trimmed := fun {p} h => by
    have solid : Solid p.toList := h
    rwa [solid.trimmed_eq]
  conjoin := Solid.conjoin
  or := Solid.or
  negation := Solid.negation
  never := Solid.never
  renamed := Solid.renamed
  conjuncts := Solid.conjuncts
  writtenProjection := Query.printable_write_projection
  writtenRenaming := Query.printable_write_renaming

/-- In no predicate of a query does a number touch an `and`, `or` or `not` behind it. -/
def NumbersApart (t : Tree) : Prop :=
  t.Every (fun _ => True) fun op text => op = .selection → Separated text.toList

instance (t : Tree) : Decidable (NumbersApart t) := Tree.decidableEvery t

theorem lasting_of_printable {op : Unary} {text : String} (printable : Printable op text)
    (apart : op = .selection → Separated text.toList) : Lasting op text := by
  cases op with
  | selection => exact ⟨printable.whole, printable.trimmed, apart rfl⟩
  | projection => exact printable
  | rename => exact printable

/-- What the optimizer makes of a query that has been read is printed as a text that is read as it, if no
number in a predicate touches a connective. -/
theorem optimized_query_is_read_back {settings : Settings} {env : Environment} {text : String} {t : Tree}
    {o : Optimized} (read : Tree.ofText? text = .ok t) (apart : NumbersApart t)
    (optimized : optimize settings env t = .ok o) : Tree.ofText? o.tree.write = .ok o.tree := by
  have lasting : t.Every (fun n => Name.isValid n = true) Lasting :=
    ((Query.printable_of_ofText? read).and apart).imp (fun _ h => h.1)
      fun _ _ h => lasting_of_printable h.1 h.2
  have kept := every_of_optimize closed_lasting optimized lasting
  exact Tree.ofText?_write (kept.imp (fun _ h => h) fun _ _ h => h.printable)

/-- The selections are merged, taken apart and moved into the product, and one of them before the renaming. -/
def enclosed : String :=
  "σ (a == 1 or (b == 2)) and not(c == 'x)(' or a>1) (ρ c➡d (σ (b==2)or a==1(r)) * s)"

theorem optimized_enclosed_is_read_back : ∃ t, Tree.ofText? enclosed = .ok t ∧ NumbersApart t ∧
    ∃ o, optimize {} (.ofTables [("r", ["a", "b"], []), ("s", ["c"], [])]) t = .ok o ∧
      Tree.ofText? o.tree.write = .ok o.tree := by
  have run : ∃ t, Tree.ofText? enclosed = .ok t ∧ NumbersApart t ∧
      ∃ o, optimize {} (.ofTables [("r", ["a", "b"], []), ("s", ["c"], [])]) t = .ok o ∧ True := by
    decide +kernel
  obtain ⟨t, read, apart, o, optimized, -⟩ := run
  exact ⟨t, read, apart, o, optimized, optimized_query_is_read_back read apart optimized⟩

/-- A number that touches an `or`, in parentheses that are dropped. -/
example : ∃ t, Tree.ofText? "σ (a == 1or(b == 2)) (r * s)" = .ok t ∧
    ∃ o, optimize {} (.ofTables [("r", ["a", "b"], []), ("s", ["c"], [])]) t = .ok o ∧
      o.tree.write = "σ a == 1or(b == 2) (r)*s" ∧ Tree.ofText? o.tree.write ≠ .ok o.tree := by
  decide +kernel

end Rewrite

end RelationalAlgebra
