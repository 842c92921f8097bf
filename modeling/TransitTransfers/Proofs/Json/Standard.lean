import TransitTransfers.Proofs.Binary64.Unpacking
import TransitTransfers.Proofs.Json.Reading
import TransitTransfers.Proofs.Json.Records

/-!
# The standard format is lawful

`Format.standard_lawful` goes through the laws.

* Single values.  What is written is read by `Json.Reader`, and it stands for the value
  that was written.
* Objects.  The laws are the cases of `Record.readMembers`, one for each way in which
  the first key can meet the fields.
* Texts.  The fields of a record are the entries of an object, and `Json.Reader` reads
  an object of entries that it reads one by one.
-/

namespace TransitTransfers

/-! ## Single values -/

/-- What has no digits is written as no value. -/
theorem write_of_not_isFinite {x : Float} (h : x.isFinite = false) :
    NumberStyle.document.write (.ofFloat x) = "null" := by
  rw [Binary64.ofFloat_eq]
  change x.toModel.unpack.isFinite = false at h
  cases hu : x.toModel.unpack with
  | notANumber | infinity => rfl
  | zero | finite =>
    rw [hu] at h
    cases h

namespace Format

open Json.Reader (Entry)

theorem standard_bool (x : Bool) : standard.Returns 0 standard.bool x :=
  ⟨.bool x, trivial, Json.Reader.read_bool x, rfl⟩

theorem standard_cost (c : Cost) : standard.Returns 0 standard.cost c := by
  obtain ⟨n, hread, hn⟩ := Json.Reader.read_int c.units
  refine ⟨.number n, trivial, hread, Option.bind_eq_some_iff.mpr ⟨c.units, hn, ?_⟩⟩
  exact Cost.ofInt?_eq_some_iff.mpr rfl

theorem standard_duration (d : Duration) : standard.Returns 0 standard.duration d := by
  have hfits : Duration.ofSeconds? d.seconds = some d := dif_pos d.fits
  exact ⟨.number ⟨false, d.seconds, 0, true⟩, trivial, Json.Reader.read_nat d.seconds, hfits⟩

/-- A floating-point number comes back if its digits stand for it. -/
theorem standard_float {x : Float}
    (h : (standard.read (standard.float.text x)).bind standard.float.read = some x) :
    standard.Returns 0 standard.float x := by
  obtain ⟨value, hwritten, hread⟩ := Option.bind_eq_some_iff.mp h
  refine ⟨value, ?_, hwritten, hread⟩
  cases value with
  | number n => trivial
  | _ => cases hread

/-! ## Objects -/

section Objects

variable {σ : Type} (r : Record σ) (start : σ) (value : Json)
  (members : List (Option String × Json))

theorem standard_unknown (key : String) (hkey : ∀ field ∈ r.fields, field.name ≠ key) :
    r.readMembers start ((some key, value) :: members) = r.readMembers start members := by
  have hnone : r.fields.find? (·.name = key) = none := by
    simpa using hkey
  rw [Record.readMembers, hnone]

theorem find?_name {field : Field σ} (hfield : field ∈ r.fields) :
    r.fields.find? (·.name = field.name) = some field := by
  cases hfind : r.fields.find? (·.name = field.name) with
  | none =>
    rw [List.find?_eq_none] at hfind
    exact absurd (decide_eq_true rfl) (hfind field hfield)
  | some other =>
    have hname : other.name = field.name := by simpa using List.find?_some hfind
    rw [List.inj_on_of_nodup_map r.distinct (List.mem_of_find?_eq_some hfind) hfield hname]

theorem standard_again {field : Field σ} (hfield : field ∈ r.fields)
    (hagain : some field.name ∈ members.map Prod.fst) :
    r.readMembers start ((some field.name, value) :: members) = none := by
  rw [Record.readMembers, find?_name r hfield]
  exact if_pos hagain

theorem standard_once {field : Field σ} (hfield : field ∈ r.fields)
    (honce : some field.name ∉ members.map Prod.fst) :
    r.readMembers start ((some field.name, value) :: members) =
      (field.codec.read value).bind fun x => r.readMembers (field.set x start) members := by
  rw [Record.readMembers, find?_name r hfield]
  exact if_neg honce

end Objects

/-! ## Texts -/

/-- The fields of a record are written as entries that are read one by one. -/
theorem exists_entries {levels : Nat} {σ : Type} {r : Record σ} {record : σ}
    {members : List (Option String × Json)} (h : standard.Writes levels r record members) :
    ∃ entries : List Entry, (∀ entry ∈ entries, entry.Sound) ∧
      entries.map Entry.member = members ∧
      entries.map Entry.write = r.fields.map fun field =>
        "\"" ++ field.name ++ "\":" ++ field.codec.text (field.get record) := by
  have hplain := r.plain
  unfold Writes at h
  generalize r.fields = fields at h hplain
  induction h with
  | nil => exact ⟨[], by simp⟩
  | @cons field member fields members hmember _ ih =>
    rw [List.forall_mem_cons] at hplain
    obtain ⟨hkey, -, hread⟩ := hmember
    obtain ⟨entries, hsound, rfl, hwrite⟩ := ih hplain.2
    refine ⟨⟨field.name, field.codec.text (field.get record), member.2⟩ :: entries,
      List.forall_mem_cons.mpr ⟨⟨hplain.1, hread⟩, hsound⟩, ?_, ?_⟩
    · rw [List.map_cons, Entry.member, ← hkey]
    · rw [List.map_cons, List.map_cons, hwrite]
      rfl

theorem standard_written {levels : Nat} {σ : Type} {r : Record σ} {record : σ}
    {members : List (Option String × Json)} (h : standard.Writes levels r record members) :
    standard.read (r.text record) = some (.object members) := by
  obtain ⟨entries, hsound, rfl, hwrite⟩ := exists_entries h
  show Json.read _ = _
  rw [Record.text, ← hwrite]
  by_cases hsome : entries = []
  · subst hsome
    rfl
  · exact Json.Reader.read_object hsome hsound

/-- The standard format is lawful. -/
theorem standard_lawful : standard.Lawful where
  bool := standard_bool
  cost := standard_cost
  duration := standard_duration
  infinite x hx := by
    show Json.read (NumberStyle.document.write (.ofFloat x)) = some .null
    rw [write_of_not_isFinite hx]
    exact Json.Reader.read_null
  null := rfl
  empty _ _ := rfl
  unnamed _ _ _ _ := rfl
  unknown r start key value members hkey := standard_unknown r start value members key hkey
  again r start value members _ hfield := standard_again r start value members hfield
  once r start value members _ hfield := standard_once r start value members hfield
  written _ _ _ _ := standard_written

end Format

end TransitTransfers
