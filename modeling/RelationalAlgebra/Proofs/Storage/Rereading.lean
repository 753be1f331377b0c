import RelationalAlgebra.Proofs.Cell.Reading
import RelationalAlgebra.Proofs.Relation.Fitting
import RelationalAlgebra.Proofs.Relation.Kinds
import RelationalAlgebra.Storage.Document
/-!
# Relations that are saved and read again

The texts of the cells of a relation say nothing of the kinds of its columns, which are found again when they
are read.  In a relation without floats that has been read from texts, the same kinds are found and the same
cells are read.
-/

namespace RelationalAlgebra

/-! ## Cells -/

namespace Cell

/-- The cells that a text is read as when no float is wanted: no date lies before the year 0. -/
def Plain : Cell → Prop
  | int _ | text _ => True
  | date d => 0 ≤ d.year
  | float _ => False

theorem separated_plain : Separated {c | c.Plain} := by
  intro c hc d hd same
  cases c with
  | int a =>
    cases d with
    | int b =>
      have value : a.toInt = b.toInt := compare_eq_iff_eq.mp same
      rw [Int64.toInt_inj.mp value]
    | float b => exact hd.elim
    | date b | text b => cases same
  | float a => exact hc.elim
  | date a =>
    cases d with
    | float b => exact hd.elim
    | date b =>
      have parts : Date.compare a b = .eq := same
      rw [Date.compare, Ordering.then_eq_eq, Ordering.then_eq_eq] at parts
      obtain ⟨⟨year, month⟩, day⟩ := parts
      obtain ⟨y, m, d, _, _, _⟩ := a
      obtain rfl : y = b.year := compare_eq_iff_eq.mp year
      obtain rfl : m = b.month := compare_eq_iff_eq.mp month
      obtain rfl : d = b.day := compare_eq_iff_eq.mp day
      rfl
    | int b | text b => cases same
  | text a => exact eq_of_compare_text same

theorem plain_cast {kind : Kind} (notFloat : kind ≠ .float) (raw : String) : (cast kind raw).Plain := by
  unfold cast
  cases kind with
  | float => exact absurd rfl notFloat
  | text => trivial
  | int =>
    rw [if_neg (by decide), Kind.read?]
    cases Text.int64? (Text.trim raw.toList) <;> trivial
  | date =>
    rw [if_neg (by decide), Kind.read?]
    cases read : Date.ofText? (Text.trim raw.toList) with
    | none => trivial
    | some d => exact (Date.ofText?_eq_some read).1

theorem trim_write {c : Cell} (plain : c.Plain) (notText : c.kind ≠ .text) :
    Text.trim c.write.toList = c.write.toList := by
  refine Text.trim_of_not_blank fun x hx => ?_
  have parts : Text.isDigit x = true ∨ x = '-' := by
    cases c with
    | int v => exact Text.mem_toString hx
    | float v => exact plain.elim
    | date d => exact Date.mem_write plain hx
    | text v => exact absurd rfl notText
  rcases parts with digit | rfl
  · exact Name.isBlank_of_isDigit digit
  · rfl

theorem read?_write {c : Cell} (plain : c.Plain) (notText : c.kind ≠ .text) :
    c.kind.read? (Text.trim c.write.toList) = some c := by
  rw [trim_write plain notText]
  cases c with
  | int v => exact congrArg (Option.map Cell.int) (Text.int64?_toString v)
  | float v => exact plain.elim
  | date d => exact congrArg (Option.map Cell.date) (Date.ofText?_write plain)
  | text v => exact absurd rfl notText

theorem admits_write {c : Cell} (plain : c.Plain) : c.kind.admits c.write = true := by
  by_cases isText : c.kind = .text
  · rw [isText]
    rfl
  · rw [Kind.admits, read?_write plain isText]
    rfl

theorem cast_write {c : Cell} (plain : c.Plain) : cast c.kind c.write = c := by
  by_cases isText : c.kind = .text
  · cases c with
    | text v => rfl
    | int | float | date => cases isText
  · rw [cast, if_neg isText, read?_write plain isText]
    rfl

end Cell

/-! ## Columns -/

namespace Kind

/-- Only which texts a column has counts, not where or how often it has them. -/
theorem ofColumn_congr {column column' : List String} (h : ∀ raw, raw ∈ column ↔ raw ∈ column') :
    ofColumn column = ofColumn column' := by
  have same : (fun kind : Kind => column.all kind.admits) = fun kind => column'.all kind.admits := by
    funext kind
    rw [Bool.eq_iff_iff, List.all_eq_true, List.all_eq_true]
    exact forall_congr' fun raw => imp_congr_left (h raw)
  rw [ofColumn, ofColumn, same]

theorem ofColumn_eq (column : List String) :
    ofColumn column =
      if ∀ raw ∈ column, int.admits raw = true then int
      else if ∀ raw ∈ column, date.admits raw = true then date
      else if ∀ raw ∈ column, float.admits raw = true then float
      else text := by
  have admitted (kind : Kind) : (∀ raw ∈ column, kind.admits raw = true) ↔ column.all kind.admits = true :=
    List.all_eq_true.symm
  have always : column.all text.admits = true := (admitted text).mp fun raw _ => admits_text raw
  simp only [admitted, ofColumn, all, List.find?, always]
  cases column.all int.admits <;> cases column.all date.admits <;> cases column.all float.admits <;> rfl

/-- The texts of the cells that a column without floats is read as make a column of the same kind. -/
theorem ofColumn_write {column : List String} (notFloat : ofColumn column ≠ float) :
    ofColumn (column.map fun raw => (Cell.cast (ofColumn column) raw).write) = ofColumn column := by
  have written {raw : String} (h : raw ∈ column) :
      (ofColumn column).admits (Cell.cast (ofColumn column) raw).write = true := by
    have admits := Cell.admits_write (Cell.plain_cast notFloat raw)
    rwa [Cell.kind_cast (admits_ofColumn h)] at admits
  cases kind : ofColumn column with
  | float => exact absurd kind notFloat
  | text =>
    have same : (column.map fun raw => (Cell.cast text raw).write) = column := List.map_id column
    rw [same, kind]
  | int =>
    rw [kind] at written
    rw [ofColumn_eq, if_pos (List.forall_mem_map.mpr fun raw => written)]
  | date =>
    rw [kind] at written
    have someNotInt : ¬∀ raw ∈ column, int.admits raw = true := by
      intro allInt
      rw [ofColumn_eq, if_pos allInt] at kind
      cases kind
    -- a text that is read as a date is no whole number, so one date is enough
    have dateNotInt {raw : String} (h : date.admits raw = true) : int.admits raw = false := by
      obtain ⟨c, hc⟩ := Option.isSome_iff_exists.mp h
      obtain ⟨d, hd, -⟩ := Option.map_eq_some_iff.mp hc
      rw [admits, read?, Text.int64?_eq_none_of_date hd]
      rfl
    rw [ofColumn_eq, if_neg, if_pos (List.forall_mem_map.mpr fun raw => written)]
    intro allInt
    obtain ⟨raw, hraw⟩ : ∃ raw, raw ∈ column := by
      by_contra none
      exact someNotInt fun raw hraw => absurd ⟨raw, hraw⟩ none
    have whole := allInt _ (List.mem_map_of_mem hraw)
    rw [dateNotInt (written hraw)] at whole
    cases whole

end Kind

/-! ## Relations -/

namespace Rows

theorem collect_of_ascending {rows : Rows} (h : Ascending rows) : collect rows = rows :=
  eq_of_mem_iff (ascending_collect rows) h fun _ => mem_collect h.apart

end Rows

namespace Relation

variable {header : Header} {rows : List (List String)} {r : Relation}

def printed (r : Relation) : List (List String) := r.rows.map fun row => row.map Cell.write

theorem castRow_write {row : Row} (plain : ∀ c ∈ row, c.Plain) :
    castRow (Row.kinds row) (row.map Cell.write) = row := by
  induction row with
  | nil => rfl
  | cons c cs ih =>
    obtain ⟨first, later⟩ := List.forall_mem_cons.mp plain
    rw [Row.kinds, castRow, List.map_cons, List.map_cons, List.zipWith_cons_cons, Cell.cast_write first]
    exact congrArg (c :: ·) (ih later)

theorem plain_castRow {kinds : List Kind} (noFloat : Kind.float ∉ kinds) (raw : List String) :
    ∀ c ∈ castRow kinds raw, c.Plain := by
  rw [castRow]
  induction kinds generalizing raw with
  | nil => simp
  | cons kind kinds ih =>
    obtain ⟨first, later⟩ := List.ne_and_not_mem_of_not_mem_cons noFloat
    cases raw with
    | nil => simp
    | cons text raw =>
      rw [List.zipWith_cons_cons]
      exact List.forall_mem_cons.mpr ⟨Cell.plain_cast (Ne.symm first) text, ih later raw⟩

theorem header_ofRaw (h : ofRaw? header rows = .ok r) : r.header = header := by
  obtain ⟨u, -, rfl⟩ := map_eq_ok.mp h
  rfl

/-- A relation that is read from texts without floats has a row for each row of texts, and no other. -/
theorem mem_ofRaw (h : ofRaw? header rows = .ok r) (noFloat : Kind.float ∉ rawKinds header.size rows)
    {row : Row} :
    row ∈ r.rows ↔ ∃ raw ∈ rows, castRow (rawKinds header.size rows) raw = row := by
  obtain ⟨-, -, rfl⟩ := map_eq_ok.mp h
  have inside : Rows.Over {c | c.Plain} (rows.map (castRow (rawKinds header.size rows))) :=
    List.forall_mem_map.mpr fun raw _ => plain_castRow noFloat raw
  rw [← List.mem_map]
  exact Rows.mem_collect (inside.apart Cell.separated_plain)

theorem plain_of_mem (h : ofRaw? header rows = .ok r)
    (noFloat : Kind.float ∉ rawKinds header.size rows) {row : Row} (hrow : row ∈ r.rows) :
    ∀ c ∈ row, c.Plain := by
  obtain ⟨raw, -, rfl⟩ := (mem_ofRaw h noFloat).mp hrow
  exact plain_castRow noFloat raw

theorem kinds_printed (h : ofRaw? header rows = .ok r)
    (noFloat : Kind.float ∉ rawKinds header.size rows) :
    rawKinds header.size r.printed = rawKinds header.size rows := by
  obtain ⟨u, checked, -⟩ := map_eq_ok.mp h
  refine List.map_congr_left fun i hi => ?_
  have notFloat : Kind.ofColumn (rows.map fun raw => raw.getD i "") ≠ .float :=
    fun float => noFloat (List.mem_map.mpr ⟨i, hi, float⟩)
  have cell {raw : List String} (hraw : raw ∈ rows) :
      ((castRow (rawKinds header.size rows) raw).map Cell.write).getD i "" =
        (Cell.cast (Kind.ofColumn (rows.map fun raw => raw.getD i "")) (raw.getD i "")).write := by
    have length := checkArity_eq_ok checked _ (List.mem_map_of_mem hraw)
    rw [List.getD_eq_getElem?_getD, List.getElem?_map,
      getElem?_castRow rows length (List.mem_range.mp hi)]
    rfl
  rw [← Kind.ofColumn_write notFloat]
  refine Kind.ofColumn_congr fun text => ?_
  simp only [printed, List.mem_map, mem_ofRaw h noFloat, exists_exists_and_eq_and]
  exact exists_congr fun raw => and_congr_right fun hraw => by rw [cell hraw]

theorem checkArity_of_forall {counts : List Nat} (h : ∀ n ∈ counts, n = header.size) :
    checkArity header counts = .ok () := by
  have none : counts.find? (fun n => n ≠ header.size) = none := by
    simpa [List.find?_eq_none] using h
  rw [checkArity, none]

/-- A relation is read again from the texts of its cells. -/
theorem ofRaw_printed (h : ofRaw? header rows = .ok r)
    (noFloat : Kind.float ∉ rawKinds header.size rows) : ofRaw? header r.printed = .ok r := by
  have wellFormed := wellFormed_ofRaw h
  have names : r.header = header := header_ofRaw h
  have arity : checkArity header (r.printed.map List.length) = .ok () := by
    refine checkArity_of_forall fun n hn => ?_
    obtain ⟨raw, hraw, rfl⟩ := List.mem_map.mp hn
    obtain ⟨row, hrow, rfl⟩ := List.mem_map.mp hraw
    rw [List.length_map, wellFormed.arity row hrow, names]
  have cast : r.printed.map (castRow (rawKinds header.size r.printed)) = r.rows := by
    rw [kinds_printed h noFloat, printed, List.map_map]
    refine (List.map_congr_left fun row hrow => ?_).trans (List.map_id r.rows)
    have read := castRow_write (plain_of_mem h noFloat hrow)
    rwa [kinds_ofRaw h row hrow] at read
  rw [ofRaw?, arity, cast, Rows.collect_of_ascending wellFormed.ascending, ← names]
  rfl

end Relation

/-! ## Documents -/

def Csv.decode? (bytes : List UInt8) : Option (List (List String)) :=
  (records bytes).mapM decodeRecord?

theorem Csv.forall₂_of_mapM {α β : Type} {f : α → Option β} {as : List α} {bs : List β}
    (h : as.mapM f = some bs) : List.Forall₂ (fun a b => f a = some b) as bs := by
  induction as generalizing bs with
  | nil =>
    obtain rfl := Option.some.inj h
    exact .nil
  | cons a as ih =>
    rw [List.mapM_cons] at h
    obtain ⟨b, hb, h⟩ := Option.bind_eq_some_iff.mp h
    obtain ⟨rest, hrest, h⟩ := Option.bind_eq_some_iff.mp h
    obtain rfl := Option.some.inj h
    exact .cons hb (ih hrest)

theorem Csv.length_of_decodeRecord? {fields : List Field} {texts : List String}
    (h : decodeRecord? fields = some texts) : fields.length = texts.length :=
  (forall₂_of_mapM h).length_eq

theorem Csv.length_of_decoded {records : List (List Field)} {rows : List (List String)} {n : Nat}
    (h : List.Forall₂ (fun fields raw => decodeRecord? fields = some raw) records rows)
    (arity : ∀ raw ∈ rows, raw.length = n) : ∀ fields ∈ records, fields.length = n := by
  induction h with
  | nil => exact List.forall_mem_nil _
  | cons decoded _ ih =>
    obtain ⟨first, later⟩ := List.forall_mem_cons.mp arity
    exact List.forall_mem_cons.mpr ⟨(length_of_decodeRecord? decoded).trans first, ih later⟩

theorem Header.ofNames?_names (header : Header) : ofNames? header.names = .ok header := by
  obtain ⟨same, h⟩ := ofNames?_eq_ok header.valid header.nodup
  rw [h, Header.ext (names_of_ofNames? h)]

theorem Header.map_trimmed_names (header : Header) : header.names.map Text.trimmed = header.names := by
  refine (List.map_congr_left fun name hname => ?_).trans (List.map_id _)
  have notBlank : ∀ c ∈ name.toList, Text.isBlank c = false :=
    fun c hc => Name.isBlank_of_isPart (Name.isPart_of_isValid (header.valid name hname) c hc)
  rw [Text.trimmed, Text.trim_of_not_blank notBlank, String.ofList_toList]
  rfl

namespace Relation

variable {header : Header} {rows : List (List String)} {r : Relation}

theorem ofCsv_of_decode {bytes : List UInt8} (h : Csv.decode? bytes = some (header.names :: rows))
    (arity : ∀ raw ∈ rows, raw.length = header.size) :
    ofCsv? bytes = (ofRaw? header rows).mapError .schema := by
  unfold Csv.decode? at h
  unfold ofCsv?
  cases records : Csv.records bytes with
  | nil =>
    rw [records] at h
    cases h
  | cons first rest =>
    rw [records, List.mapM_cons] at h
    obtain ⟨names, hnames, h⟩ := Option.bind_eq_some_iff.mp h
    obtain ⟨texts, htexts, h⟩ := Option.bind_eq_some_iff.mp h
    obtain ⟨rfl, rfl⟩ := List.cons.inj (Option.some.inj h)
    have lengths := Csv.length_of_decoded (Csv.forall₂_of_mapM htexts) arity
    have even : rest.all (fun fields => fields.length = first.length) = true := by
      refine List.all_eq_true.mpr fun fields hfields => decide_eq_true ?_
      rw [lengths fields hfields, Csv.length_of_decodeRecord? hnames]
      rfl
    simp only [hnames, Header.map_trimmed_names, Header.ofNames?_names, even, if_true, htexts]

theorem ofJson_of_table {text : String}
    (h : (Json.ofText? text.toList).bind Json.table? = some (header.names, rows)) :
    ofJson? text = (ofRaw? header rows).mapError .schema := by
  rw [ofJson?, h]
  simp only [ofTable?, Header.ofNames?_names]

theorem length_of_mem_printed (wellFormed : r.WellFormed) :
    ∀ raw ∈ r.printed, raw.length = r.header.size := by
  intro raw hraw
  obtain ⟨row, hrow, rfl⟩ := List.mem_map.mp hraw
  rw [List.length_map, wellFormed.arity row hrow]

/-- A relation that has been read from texts, and has no column of floats, is read again from the texts of its
cells, with the same kinds; so it is read again from its documents when these are decoded to what they were
made of. -/
theorem saved_relations_survive {header : Header} {rows : List (List String)} {r : Relation}
    (h : ofRaw? header rows = .ok r) (noFloat : Kind.float ∉ rawKinds header.size rows) :
    ofRaw? header r.printed = .ok r ∧
      rawKinds header.size r.printed = rawKinds header.size rows ∧
      (Csv.decode? r.toCsv.toUTF8.toList = some (r.names :: r.printed) →
        ofCsv? r.toCsv.toUTF8.toList = .ok r) ∧
      ((Json.ofText? r.toJson.toList).bind Json.table? = some (r.names, r.printed) →
        ofJson? r.toJson = .ok r) := by
  have read := ofRaw_printed h noFloat
  obtain rfl : r.header = header := header_ofRaw h
  refine ⟨read, kinds_printed h noFloat, fun decoded => ?_, fun decoded => ?_⟩
  · rw [ofCsv_of_decode decoded (length_of_mem_printed (wellFormed_ofRaw h)), read]
    rfl
  · rw [ofJson_of_table decoded, read]
    rfl

def loanHeader : Header := ⟨["copies", "due", "title"], by decide +kernel, by decide⟩

/-- An integer, a date and a text that are not written as they are read. -/
theorem saved_relations_survive_loan :
    ∃ r, ofRaw? loanHeader [["+007 ", "2024/1/5", " 1, 2 "]] = .ok r ∧
      r.printed = [["7", "2024-01-05", " 1, 2 "]] ∧ ofRaw? loanHeader r.printed = .ok r ∧
      rawKinds loanHeader.size r.printed = [.int, .date, .text] ∧
      ofCsv? r.toCsv.toUTF8.toList = .ok r ∧ ofJson? r.toJson = .ok r := by
  have read : ∃ r, ofRaw? loanHeader [["+007 ", "2024/1/5", " 1, 2 "]] = .ok r ∧
      r.printed = [["7", "2024-01-05", " 1, 2 "]] ∧
      Csv.decode? r.toCsv.toUTF8.toList = some (r.names :: r.printed) ∧
      (Json.ofText? r.toJson.toList).bind Json.table? = some (r.names, r.printed) := by
    decide +kernel
  have kinds : rawKinds loanHeader.size [["+007 ", "2024/1/5", " 1, 2 "]] = [.int, .date, .text] := by
    decide +kernel
  obtain ⟨r, h, printed, csv, json⟩ := read
  obtain ⟨again, same, ofCsv, ofJson⟩ := saved_relations_survive h (by rw [kinds]; decide)
  exact ⟨r, h, printed, again, same.trans kinds, ofCsv csv, ofJson json⟩

end Relation

end RelationalAlgebra
