import RelationalAlgebra.Name.Map
import RelationalAlgebra.Relation.Fault
/-!
# Headers

A header is a list of valid names of attributes, no two of which are equal.
-/

namespace RelationalAlgebra

namespace Header

/-- The first reason why the names are no header; the names in `seen` stand before them. -/
def fault? (seen : List String) : List String → Option SchemaFault
  | [] => none
  | n :: ns =>
    if Name.isValid n then
      if seen.contains n then some (.repeated n) else fault? (n :: seen) ns
    else some (.badName n)

theorem of_fault?_eq_none {seen names : List String} (h : fault? seen names = none) :
    (∀ n ∈ names, Name.isValid n = true) ∧ names.Nodup ∧ ∀ n ∈ names, n ∉ seen := by
  induction names generalizing seen with
  | nil => simp
  | cons n ns ih =>
    simp only [fault?] at h
    split at h
    · next valid =>
      split at h
      · cases h
      · next new =>
        obtain ⟨valids, nodup, unseen⟩ := ih h
        refine ⟨?_, ?_, ?_⟩
        · simpa [valid] using valids
        · exact List.nodup_cons.mpr ⟨fun mem => unseen n mem (List.mem_cons_self ..), nodup⟩
        · intro m hm
          rcases List.mem_cons.mp hm with rfl | hm
          · simpa using new
          · exact fun mem => unseen m hm (List.mem_cons_of_mem _ mem)
    · cases h

end Header

structure Header where
  names : List String
  valid : ∀ n ∈ names, Name.isValid n = true
  nodup : names.Nodup

namespace Header

theorem ext {a b : Header} (h : a.names = b.names) : a = b := by
  cases a; cases b; congr

instance : DecidableEq Header := fun a b =>
  decidable_of_iff (a.names = b.names) ⟨ext, fun h => by rw [h]⟩

def empty : Header := ⟨[], by simp, List.nodup_nil⟩

def ofNames? (names : List String) : Except SchemaFault Header :=
  match h : fault? [] names with
  | some fault => .error fault
  | none => .ok ⟨names, (of_fault?_eq_none h).1, (of_fault?_eq_none h).2.1⟩

theorem names_of_ofNames? {names : List String} {h : Header} (eq : ofNames? names = .ok h) :
    h.names = names := by
  unfold ofNames? at eq
  split at eq
  · cases eq
  · obtain rfl := Except.ok.inj eq
    rfl

def size (h : Header) : Nat := h.names.length

def contains (h : Header) (name : String) : Bool := h.names.contains name

def position? (h : Header) (name : String) : Option Nat := h.names.idxOf? name

def positions (h : Header) (names : List String) : Except SchemaFault (List Nat) :=
  match names with
  | [] => .ok []
  | n :: ns =>
    match h.position? n with
    | none => .error (.absent n h.names)
    | some i => (h.positions ns).map (i :: ·)

def shared (a b : Header) : List String := a.names.filter b.contains

def extra (a b : Header) : List String := b.names.filter fun n => !a.contains n

def sameSet (a b : Header) : Bool := a.size = b.size && a.names.all b.contains

/-- Renames all attributes at once; the renaming must not mention others. -/
def rename (h : Header) (r : Renaming) : Except SchemaFault Header :=
  match r.keys.find? fun old => !h.contains old with
  | some old => .error (.cannotRename old h.names)
  | none => ofNames? (h.names.map r.apply)

end Header

end RelationalAlgebra
