import JavaMend.Remedy.Catalog
import JavaMend.Proofs.Json.Reading
import Mathlib.Data.List.Forall2
import Mathlib.Data.List.Nodup

/-!
# Catalogs that are read back

A catalog is written as a JSON document and read back as itself
(`Catalog.ofText_text`): the fields of an entry are found under their names whatever they
hold, a remediation is told by its type, and what was valid when the catalog was made is
valid when it is read.
-/

namespace JavaMend

namespace Remediation

/-- A remediation without parameters is told by its name. -/
theorem ofKind?_of_mem_plain : ∀ r ∈ plain, ofKind? r.kindName = some r := by decide

/-- The remediations without parameters are all but one. -/
theorem mem_plain_of_ne {r : Remediation}
    (other : ∀ userInput stem fixPartialPath message,
      r = .pathTraversal userInput stem fixPartialPath message → False) : r ∈ plain := by
  cases r with
  | pathTraversal userInput stem fixPartialPath message => exact (other _ _ _ _ rfl).elim
  | _ => decide

end Remediation

namespace Catalog

/-! ## Fields -/

/-- Of distinct names, one field has the name in question. -/
theorem filter_name {fields : List (String × Json)} (distinct : (fields.map Prod.fst).Nodup)
    {name : String} {value : Json} (mem : (name, value) ∈ fields) :
    fields.filter (·.1 == name) = [(name, value)] := by
  induction fields with
  | nil => cases mem
  | cons field fields ih =>
    rw [List.map_cons, List.nodup_cons] at distinct
    obtain ⟨fresh, distinct⟩ := distinct
    rcases List.mem_cons.mp mem with rfl | mem
    · have none : fields.filter (·.1 == name) = [] := by
        rw [List.filter_eq_nil_iff]
        intro other there same
        have same : other.1 = name := eq_of_beq same
        exact fresh (List.mem_map.mpr ⟨other, there, same⟩)
      simp [none]
    · have apart : field.1 ≠ name := by
        rintro rfl
        exact fresh (List.mem_map.mpr ⟨_, mem, rfl⟩)
      simp [apart, ih distinct mem]

/-- Fields of distinct names are found under their names. -/
theorem fieldsOf?_eq_some {fields : List (String × Json)} (distinct : (fields.map Prod.fst).Nodup)
    {names : List String} {values : List Json}
    (here : List.Forall₂ (fun name value => (name, value) ∈ fields) names values) :
    fieldsOf? names fields = some (values.map some) := by
  unfold fieldsOf?
  induction here with
  | nil => rfl
  | cons mem _ ih =>
    rw [List.mapM_cons, filter_name distinct mem, ih]
    rfl

/-! ## Values -/

theorem readTexts?_ofStrings (texts : List String) :
    readTexts? (Json.ofStrings texts) = some texts := by
  rw [Json.ofStrings, readTexts?]
  induction texts with
  | nil => rfl
  | cons text texts ih =>
    rw [List.map_cons, List.mapM_cons, ih]
    rfl

theorem allSound_iff {items : List Json} :
    allSound items = true ↔ ∀ item ∈ items, isSound item = true := by
  induction items with
  | nil => simp [allSound]
  | cons item items ih => simp [allSound, ih]

theorem isSound_ofStrings (texts : List String) : isSound (Json.ofStrings texts) = true := by
  rw [Json.ofStrings, isSound, allSound_iff]
  intro item mem
  obtain ⟨text, _, rfl⟩ := List.mem_map.mp mem
  simp [isSound]

theorem isSound_remediationFields (r : Remediation) :
    isSound (.obj (remediationFields r)) = true := by
  rw [remediationFields.eq_def]
  split
  · simp [isSound, allFieldsSound, isSound_ofStrings]
  · simp [isSound, allFieldsSound]

/-- A remediation is read back from its fields. -/
theorem readRemediation?_fields (r : Remediation) :
    readRemediation? (.obj (remediationFields r)) = some r := by
  have sound := isSound_remediationFields r
  rw [remediationFields.eq_def] at sound ⊢
  split at *
  · next userInput stem fixPartialPath message =>
    have kind : Remediation.ofKind? "path_traversal" = none := by decide
    have distinct : ([("type", .str "path_traversal"), ("user_input", .ofStrings userInput),
        ("new_variable_prefix", .str stem), ("fix_partial_path", .bool fixPartialPath),
        ("guard_message", .str message)].map (Prod.fst : String × Json → String)).Nodup := by
      simp
    have type := fieldsOf?_eq_some distinct (.cons List.mem_cons_self .nil)
    have params := fieldsOf?_eq_some distinct (.cons (.tail _ (.head _))
      (.cons (.tail _ (.tail _ (.head _))) (.cons (.tail _ (.tail _ (.tail _ (.head _))))
        (.cons (.tail _ (.tail _ (.tail _ (.tail _ (.head _))))) .nil))))
    rw [readRemediation?, sound]
    simp [type, kind, params, readParams?, readOr, readTexts?_ofStrings, Json.str?, Json.bool?]
  · next other =>
    have kind := Remediation.ofKind?_of_mem_plain r (Remediation.mem_plain_of_ne other)
    have type : fieldsOf? ["type"] [("type", .str r.kindName)] = some [some (.str r.kindName)] :=
      fieldsOf?_eq_some (by simp) (.cons List.mem_cons_self .nil)
    rw [readRemediation?, sound]
    simp [type, kind]

/-- An entry is read back from its fields. -/
theorem readEntry?_entryJson (entry : CatalogEntry) : readEntry? (entryJson entry) = some entry := by
  have fields := fieldsOf?_eq_some
    (show ([("id", .str entry.id), ("display_name", .str entry.displayName),
      ("tags", .ofStrings entry.tags), ("remediation", .obj (remediationFields entry.remediation))].map
        (Prod.fst : String × Json → String)).Nodup by simp)
    (.cons (.head _) (.cons (.tail _ (.head _)) (.cons (.tail _ (.tail _ (.head _)))
      (.cons (.tail _ (.tail _ (.tail _ (.head _)))) .nil))))
  rw [entryJson, readEntry?]
  simp [fields, readParts?, readOr, readTexts?_ofStrings, readRemediation?_fields, Json.str?]

theorem readEntries?_map (entries : List CatalogEntry) :
    readEntries? (.arr (entries.map entryJson)) = some entries := by
  rw [readEntries?]
  induction entries with
  | nil => rfl
  | cons entry entries ih =>
    rw [List.map_cons, List.mapM_cons, readEntry?_entryJson, ih]
    rfl

/-! ## Documents -/

theorem fits_ofStrings {depth : Nat} (deep : 1 < depth) (texts : List String) :
    (Json.ofStrings texts).Fits depth := by
  have flat : ∀ item ∈ texts.map Json.str, item.Fits (depth - 1) := by
    intro item mem
    obtain ⟨text, _, rfl⟩ := List.mem_map.mp mem
    exact trivial
  exact ⟨deep, Json.itemsFit_iff.mpr flat⟩

theorem fits_remediationFields {depth : Nat} (deep : 2 < depth) (r : Remediation) :
    (Json.obj (remediationFields r)).Fits depth := by
  have flat (texts : List String) : (Json.ofStrings texts).Fits (depth - 1) :=
    fits_ofStrings (by omega) texts
  rw [remediationFields.eq_def]
  split
  · exact ⟨by omega, trivial, flat _, trivial, trivial, trivial, trivial⟩
  · exact ⟨by omega, trivial, trivial⟩

theorem fits_entryJson {depth : Nat} (deep : 3 < depth) (entry : CatalogEntry) :
    (entryJson entry).Fits depth := by
  have tags : (Json.ofStrings entry.tags).Fits (depth - 1) := fits_ofStrings (by omega) entry.tags
  have remediation : (Json.obj (remediationFields entry.remediation)).Fits (depth - 1) :=
    fits_remediationFields (by omega) entry.remediation
  rw [entryJson]
  exact ⟨by omega, trivial, trivial, tags, remediation, trivial⟩

/-- The document of a catalog can be read. -/
theorem fits_map (entries : List CatalogEntry) :
    (Json.arr (entries.map entryJson)).Fits Json.depthLimit := by
  have each : ∀ item ∈ entries.map entryJson, item.Fits (Json.depthLimit - 1) := by
    intro item mem
    obtain ⟨entry, _, rfl⟩ := List.mem_map.mp mem
    exact fits_entryJson (by decide) entry
  exact ⟨by decide, Json.itemsFit_iff.mpr each⟩

/-- Making a catalog keeps the entries. -/
theorem entries_of_make [GlobCompiler] {entries : List CatalogEntry} {c : Catalog}
    (made : make entries = .ok c) :
    c.entries = entries := by
  rw [make] at made
  cases valid : validateFrom [] entries with
  | error e =>
    rw [valid] at made
    cases made
  | ok _ =>
    rw [valid] at made
    cases made
    rfl

/-- A catalog that can be made is read back from its document, whatever its entries hold. -/
theorem ofText_text [GlobCompiler] {entries : List CatalogEntry} {c : Catalog}
    (made : make entries = .ok c) :
    ofText c.text = .ok c := by
  have same := entries_of_make made
  have read : Json.parse? c.text = some (.arr (c.entries.map entryJson)) :=
    Json.parse?_pretty (fits_map c.entries)
  rw [ofText, read, Option.bind_some, readEntries?_map, same]
  exact made

/-- Entries with texts that are written with escapes, and a remediation with parameters. -/
def escapedEntries : List CatalogEntry :=
  [ { id := "zip \"slip\"", displayName := "C:\\temp\n\t√", tags := ["", "CWE-22"],
      remediation := .pathTraversal ["java.util.zip.ZipEntry getName()"] "zipEntry" true "\x01" },
    { id := "cookie", displayName := "", tags := [], remediation := .cookieSecure } ]

section

attribute [local instance] GlobCompiler.standard

theorem ofText_text_escapedEntries :
    make escapedEntries = .ok { entries := escapedEntries } ∧
      ofText (text { entries := escapedEntries }) = .ok { entries := escapedEntries } := by
  have made : make escapedEntries = .ok { entries := escapedEntries } := by
    decide +kernel
  exact ⟨made, ofText_text made⟩

end

end Catalog

end JavaMend
