import Mathlib.Data.List.Forall2
import Mathlib.Data.List.Nodup
import TransitTransfers.Json.Format
import TransitTransfers.Proofs.Computation

/-!
# Records in documents

What a lawful format makes of a record.

* `Format.Lawful` is what is expected of a format.  Its laws speak of the first member
  of an object only, and of single values.
* Members.  `Gives` says what the members of an object give for a field.
  `read_object_iff` takes the members one after the other, one case for each law: an
  object is read as a record if its members can be told apart and every field holds
  what they give for it, or else what it held before.
* Texts.  `returns_record` says that a record comes back if all of its fields do, and
  `loses_record` that it is refused if one of them is.
-/

namespace TransitTransfers

namespace Json

theorem Within.succ {levels : Nat} {value : Json} (h : value.Within levels) :
    value.Within (levels + 1) := by
  induction levels generalizing value with
  | zero => cases value <;> simp_all [Within]
  | succ levels ih =>
    cases value with
    | array items => exact fun item hitem => ih (h item hitem)
    | object members => exact fun member hmember => ih (h member hmember)
    | _ => simp [Within]

end Json

/-! ## Laws -/

namespace Format

variable {α : Type}

/-- A value is written with few levels, and is read back. -/
def Returns (format : Format) (levels : Nat) (codec : Codec α) (x : α) : Prop :=
  ∃ value : Json, value.Within levels ∧ format.read (codec.text x) = some value ∧
    codec.read value = some x

/-- A value is written with few levels, and what is written is refused. -/
def Loses (format : Format) (levels : Nat) (codec : Codec α) (x : α) : Prop :=
  ∃ value : Json, value.Within levels ∧ format.read (codec.text x) = some value ∧
    codec.read value = none

theorem Returns.succ {format : Format} {levels : Nat} {codec : Codec α} {x : α}
    (h : format.Returns levels codec x) : format.Returns (levels + 1) codec x := by
  obtain ⟨value, hlevels, hread⟩ := h
  exact ⟨value, hlevels.succ, hread⟩

theorem Loses.succ {format : Format} {levels : Nat} {codec : Codec α} {x : α}
    (h : format.Loses levels codec x) : format.Loses (levels + 1) codec x := by
  obtain ⟨value, hlevels, hread⟩ := h
  exact ⟨value, hlevels.succ, hread⟩

/-- The fields of a record are written as members, in order. -/
def Writes {σ : Type} (format : Format) (levels : Nat) (r : Record σ) (record : σ)
    (members : List (Option String × Json)) : Prop :=
  List.Forall₂ (fun field (member : Option String × Json) =>
    member.1 = some field.name ∧ member.2.Within levels ∧
      format.read (field.codec.text (field.get record)) = some member.2) r.fields members

/-- What is expected of a library that keeps values in JSON texts. -/
structure Lawful (format : Format) : Prop where
  bool : ∀ x, format.Returns 0 format.bool x
  cost : ∀ x, format.Returns 0 format.cost x
  duration : ∀ x, format.Returns 0 format.duration x
  /-- There are no infinities in JSON, nor anything that is not a number.  In place of
  them stands `null`, -/
  infinite : ∀ x : Float, x.isFinite = false → format.read (format.float.text x) = some .null
  /-- and this is not read as a number. -/
  null : format.float.read .null = none
  /-- What is missing is taken from another record. -/
  empty : ∀ {σ : Type} (r : Record σ) (start : σ),
    (format.record r start).read (.object []) = some start
  /-- A key without text is refused. -/
  unnamed : ∀ {σ : Type} (r : Record σ) (start : σ) (value : Json) members,
    (format.record r start).read (.object ((none, value) :: members)) = none
  /-- A field that is not known is passed over. -/
  unknown : ∀ {σ : Type} (r : Record σ) (start : σ) (key : String) (value : Json) members,
    (∀ field ∈ r.fields, field.name ≠ key) →
      (format.record r start).read (.object ((some key, value) :: members)) =
        (format.record r start).read (.object members)
  /-- A known field that comes again is refused. -/
  again : ∀ {σ : Type} (r : Record σ) (start : σ) (value : Json) members, ∀ field ∈ r.fields,
    some field.name ∈ members.map Prod.fst →
      (format.record r start).read (.object ((some field.name, value) :: members)) = none
  /-- A known field that comes once is read by itself. -/
  once : ∀ {σ : Type} (r : Record σ) (start : σ) (value : Json) members, ∀ field ∈ r.fields,
    some field.name ∉ members.map Prod.fst →
      (format.record r start).read (.object ((some field.name, value) :: members)) =
        (field.codec.read value).bind fun x =>
          (format.record r (field.set x start)).read (.object members)
  /-- A record is written as an object of all its fields in order, if they are not
  nested any deeper. -/
  written : ∀ {σ : Type} (r : Record σ) (start record : σ) members,
    format.Writes 1 r record members →
      format.read ((format.record r start).text record) = some (.object members)

end Format

/-! ## Members -/

namespace Field

/-- The members of an object can be told apart: every key has a text, and no
known field is given twice. -/
structure WellFormed {σ : Type} (fields : List (Field σ))
    (members : List (Option String × Json)) : Prop where
  named : ∀ member ∈ members, member.1 ≠ none
  once : ∀ field ∈ fields, (members.map Prod.fst).count (some field.name) ≤ 1

/-- A known field is given twice. -/
def GivenTwice {σ : Type} (fields : List (Field σ)) (members : List (Option String × Json)) :
    Prop :=
  ∃ field ∈ fields, 2 ≤ (members.map Prod.fst).count (some field.name)

/-- What members give for a field: nothing if no member has its name, and else
what the value of such a member is read as. -/
def Gives {α : Type} (members : List (Option String × Json)) (name : String)
    (read : Json → Option α) : Option α → Prop
  | none => ∀ value, (some name, value) ∉ members
  | some x => ∃ value, (some name, value) ∈ members ∧ read value = some x

/-- A field holds what members give for it, or else what it held before. -/
def Holds {σ : Type} (field : Field σ) (members : List (Option String × Json))
    (before after : σ) : Prop :=
  ∃ given, Gives members field.name field.codec.read given ∧
    field.get after = given.getD (field.get before)

section Members

variable {σ : Type} {fields : List (Field σ)} {field : Field σ} {key : String} {value : Json}
  {members : List (Option String × Json)} {before after : σ}

theorem wellFormed_cons_unknown (hkey : ∀ field ∈ fields, field.name ≠ key) :
    WellFormed fields ((some key, value) :: members) ↔ WellFormed fields members := by
  have hcount : ∀ field ∈ fields, (((some key, value) :: members).map Prod.fst).count
      (some field.name) = (members.map Prod.fst).count (some field.name) := by
    intro field hfield
    rw [List.map_cons, List.count_cons_of_ne (by simpa using (hkey field hfield).symm)]
  constructor
  · rintro ⟨hnamed, honce⟩
    exact ⟨(List.forall_mem_cons.mp hnamed).2, fun field hfield =>
      hcount field hfield ▸ honce field hfield⟩
  · rintro ⟨hnamed, honce⟩
    exact ⟨List.forall_mem_cons.mpr ⟨Option.some_ne_none key, hnamed⟩, fun field hfield =>
      (hcount field hfield).symm ▸ honce field hfield⟩

theorem wellFormed_cons_once (hkey : some key ∉ members.map Prod.fst) :
    WellFormed fields ((some key, value) :: members) ↔ WellFormed fields members := by
  have hcount : ∀ name, (((some key, value) :: members).map Prod.fst).count (some name) ≤ 1 ↔
      (members.map Prod.fst).count (some name) ≤ 1 := by
    intro name
    rw [List.map_cons]
    by_cases hname : key = name
    · subst hname
      rw [List.count_cons_self, List.count_eq_zero.mpr hkey]
      omega
    · rw [List.count_cons_of_ne (by simpa using hname)]
  constructor
  · rintro ⟨hnamed, honce⟩
    exact ⟨(List.forall_mem_cons.mp hnamed).2, fun field hfield =>
      (hcount field.name).mp (honce field hfield)⟩
  · rintro ⟨hnamed, honce⟩
    exact ⟨List.forall_mem_cons.mpr ⟨Option.some_ne_none key, hnamed⟩, fun field hfield =>
      (hcount field.name).mpr (honce field hfield)⟩

section Gives

variable {α : Type} {name : String} {read : Json → Option α} {given : Option α}

/-- A member of another name gives nothing. -/
theorem gives_cons_of_ne (hkey : key ≠ name) :
    Gives ((some key, value) :: members) name read given ↔ Gives members name read given := by
  have hmem : ∀ other, (some name, other) ∈ (some key, value) :: members ↔
      (some name, other) ∈ members := by
    intro other
    simp [hkey.symm]
  cases given <;> simp only [Gives, hmem]

/-- Without a member of its name, nothing is given for a field. -/
theorem gives_of_not_mem (hname : some name ∉ members.map Prod.fst) :
    Gives members name read given ↔ given = none := by
  have hnone : ∀ value, (some name, value) ∉ members :=
    fun value hmem => hname (List.mem_map_of_mem hmem)
  cases given with
  | none => exact iff_of_true hnone rfl
  | some x =>
    refine iff_of_false ?_ (Option.some_ne_none x)
    rintro ⟨value, hmem, -⟩
    exact hnone value hmem

/-- The only member of its name gives its value. -/
theorem gives_cons_once (hname : some name ∉ members.map Prod.fst) :
    Gives ((some name, value) :: members) name read given ↔
      ∃ x, given = some x ∧ read value = some x := by
  have hmem : ∀ other, (some name, other) ∈ (some name, value) :: members ↔ other = value := by
    intro other
    have hother : (some name, other) ∉ members := fun hmem => hname (List.mem_map_of_mem hmem)
    simp [hother]
  cases given with
  | none =>
    refine iff_of_false (fun hnone => ?_) (by simp)
    exact hnone value List.mem_cons_self
  | some x => simp [Gives, hmem]

end Gives

/-- A member of another name does not count for a field. -/
theorem holds_cons_of_ne {next : σ} (hkey : key ≠ field.name)
    (hnext : field.get next = field.get before) :
    field.Holds ((some key, value) :: members) before after ↔
      field.Holds members next after := by
  unfold Holds
  simp only [gives_cons_of_ne hkey, hnext]

/-- The only member of its name is what a field holds. -/
theorem holds_cons_once (hname : some field.name ∉ members.map Prod.fst) :
    field.Holds ((some field.name, value) :: members) before after ↔
      ∃ x, field.codec.read value = some x ∧ field.Holds members (field.set x before) after := by
  unfold Holds
  simp only [gives_cons_once hname, gives_of_not_mem hname, field.get_set]
  constructor
  · rintro ⟨_, ⟨x, rfl, hread⟩, hget⟩
    exact ⟨x, hread, none, rfl, hget⟩
  · rintro ⟨x, hread, _, rfl, hget⟩
    exact ⟨some x, ⟨x, rfl, hread⟩, hget⟩

theorem not_wellFormed_of_givenTwice (h : GivenTwice fields members) :
    ¬WellFormed fields members := by
  obtain ⟨field, hfield, htwice⟩ := h
  intro hwell
  have honce := hwell.once field hfield
  omega

/-- Members that can be told apart give a field one value at most. -/
theorem WellFormed.eq_of_mem (h : WellFormed fields members) (hfield : field ∈ fields)
    {x y : Json} (hx : (some field.name, x) ∈ members) (hy : (some field.name, y) ∈ members) :
    x = y := by
  have honce := h.once field hfield
  clear h
  induction members with
  | nil => cases hx
  | cons member members ih =>
    rw [List.map_cons] at honce
    by_cases hfirst : member.1 = some field.name
    · -- No member behind the first one has the name.
      rw [hfirst, List.count_cons_self] at honce
      have hnone : ∀ value, (some field.name, value) ∉ members := by
        intro value hmem
        have hpos : 0 < (members.map Prod.fst).count (some field.name) :=
          List.count_pos_iff.mpr (List.mem_map_of_mem hmem)
        omega
      have hx := (List.mem_cons.mp hx).resolve_right (hnone x)
      have hy := (List.mem_cons.mp hy).resolve_right (hnone y)
      exact congrArg Prod.snd (hx.trans hy.symm)
    · rw [List.count_cons_of_ne hfirst] at honce
      have hrest : ∀ value, (some field.name, value) ∈ member :: members →
          (some field.name, value) ∈ members := by
        intro value hmem
        refine (List.mem_cons.mp hmem).resolve_left ?_
        rintro rfl
        exact hfirst rfl
      exact ih (hrest x hx) (hrest y hy) honce

end Members

end Field

/-! ## Reading objects -/

namespace Format.Lawful

open TransitTransfers.Field (WellFormed Gives GivenTwice)

variable {format : Format} {σ : Type} {r : Record σ} {start record : σ}
  {members : List (Option String × Json)}

/-- An object is read as a record if and only if its members can be told apart and each
field of the record holds what they give for it, or else what it held before. -/
theorem read_object_iff (h : format.Lawful) :
    (format.record r start).read (.object members) = some record ↔
      WellFormed r.fields members ∧ ∀ field ∈ r.fields, field.Holds members start record := by
  -- A member that is read changes the record from which the others start.
  induction members generalizing start with
  | nil =>
    rw [h.empty, Option.some.injEq]
    have hholds : ∀ field : Field σ, field.Holds [] start record ↔
        field.get record = field.get start := by
      intro field
      simp [Field.Holds, Field.gives_of_not_mem]
    simp only [hholds]
    constructor
    · rintro rfl
      exact ⟨⟨by simp, by simp⟩, fun _ _ => rfl⟩
    · rintro ⟨-, hsame⟩
      exact (r.ext record start hsame).symm
  | cons member members ih =>
    obtain ⟨key, value⟩ := member
    cases key with
    | none =>
      rw [h.unnamed]
      refine iff_of_false (by simp) fun hread => ?_
      exact hread.1.named _ List.mem_cons_self rfl
    | some key =>
      by_cases hkey : ∃ field ∈ r.fields, field.name = key
      · obtain ⟨field, hfield, rfl⟩ := hkey
        by_cases hagain : some field.name ∈ members.map Prod.fst
        · rw [h.again r start value members field hfield hagain]
          refine iff_of_false (by simp) fun hread => ?_
          have honce := hread.1.once field hfield
          have hpos := List.count_pos_iff.mpr hagain
          rw [List.map_cons, List.count_cons_self] at honce
          omega
        · rw [h.once r start value members field hfield hagain, Option.bind_eq_some_iff,
            Field.wellFormed_cons_once hagain]
          simp only [ih]
          have hother : ∀ other ∈ r.fields, other ≠ field → ∀ x,
              other.Holds ((some field.name, value) :: members) start record ↔
                other.Holds members (field.set x start) record := by
            intro other hmem hne x
            have hname : other.name ≠ field.name := fun hname =>
              hne (List.inj_on_of_nodup_map r.distinct hmem hfield hname)
            exact Field.holds_cons_of_ne hname.symm
              (r.separate other hmem field hfield hname x start)
          constructor
          · rintro ⟨x, hread, hwell, hholds⟩
            refine ⟨hwell, fun other hmem => ?_⟩
            by_cases hsame : other = field
            · subst hsame
              exact (Field.holds_cons_once hagain).mpr ⟨x, hread, hholds other hmem⟩
            · exact (hother other hmem hsame x).mpr (hholds other hmem)
          · rintro ⟨hwell, hholds⟩
            obtain ⟨x, hread, hown⟩ := (Field.holds_cons_once hagain).mp (hholds field hfield)
            refine ⟨x, hread, hwell, fun other hmem => ?_⟩
            by_cases hsame : other = field
            · subst hsame
              exact hown
            · exact (hother other hmem hsame x).mp (hholds other hmem)
      · have hunknown : ∀ field ∈ r.fields, field.name ≠ key := by simpa using hkey
        rw [h.unknown r start key value members hunknown, ih,
          Field.wellFormed_cons_unknown hunknown]
        refine and_congr_right fun _ => forall₂_congr fun field hfield => ?_
        exact (Field.holds_cons_of_ne (hunknown field hfield).symm rfl).symm

/-- What gives a known field twice is refused. -/
theorem read_of_givenTwice (h : format.Lawful) (htwice : GivenTwice r.fields members) :
    (format.record r start).read (.object members) = none := by
  refine Option.eq_none_iff_forall_not_mem.mpr fun record hread => ?_
  exact Field.not_wellFormed_of_givenTwice htwice (h.read_object_iff.mp (Option.mem_def.mp hread)).1

/-- A value that a known field does not take is refused. -/
theorem read_of_unread (h : format.Lawful) {field : Field σ} (hfield : field ∈ r.fields)
    {value : Json} (hmem : (some field.name, value) ∈ members)
    (hvalue : field.codec.read value = none) :
    (format.record r start).read (.object members) = none := by
  refine Option.eq_none_iff_forall_not_mem.mpr fun record hread => ?_
  obtain ⟨hwell, hholds⟩ := h.read_object_iff.mp (Option.mem_def.mp hread)
  obtain ⟨given, hgives, -⟩ := hholds field hfield
  cases given with
  | none => exact hgives value hmem
  | some x =>
    obtain ⟨other, hother, hx⟩ := hgives
    rw [hwell.eq_of_mem hfield hother hmem, hvalue] at hx
    cases hx

end Format.Lawful

/-! ## Texts -/

namespace Format

variable {format : Format} {σ : Type} {r : Record σ} {start record : σ} {levels : Nat}
  {members : List (Option String × Json)}

theorem exists_writes (hfields : ∀ field ∈ r.fields, ∃ value : Json, value.Within levels ∧
    format.read (field.codec.text (field.get record)) = some value) :
    ∃ members, format.Writes levels r record members := by
  unfold Writes
  generalize r.fields = fields at hfields
  induction fields with
  | nil => exact ⟨[], .nil⟩
  | cons field fields ih =>
    rw [List.forall_mem_cons] at hfields
    obtain ⟨value, hlevels, hread⟩ := hfields.1
    obtain ⟨members, hmembers⟩ := ih hfields.2
    exact ⟨(some field.name, value) :: members, .cons ⟨rfl, hlevels, hread⟩ hmembers⟩

namespace Writes

theorem within (h : format.Writes levels r record members) :
    (Json.object members).Within (levels + 1) := by
  intro member hmember
  obtain ⟨field, -, -, hlevels, -⟩ := exists_mem_of_forall₂ h hmember
  exact hlevels

theorem wellFormed (h : format.Writes levels r record members) :
    Field.WellFormed r.fields members := by
  have hkeys : members.map Prod.fst = (r.fields.map Field.name).map some := by
    rw [List.map_map, ← List.forall₂_eq_eq_eq, List.forall₂_map_left_iff,
      List.forall₂_map_right_iff]
    exact h.flip.imp fun member field hmember => hmember.1
  refine ⟨fun member hmember => ?_, fun field _ => ?_⟩
  · obtain ⟨field, -, hname, -⟩ := exists_mem_of_forall₂ h hmember
    rw [hname]
    exact Option.some_ne_none field.name
  · rw [hkeys]
    exact List.nodup_iff_count_le_one.mp
      (r.distinct.map fun _ _ hsame => Option.some.inj hsame) (some field.name)

/-- The value of a field is in the object. -/
theorem mem (h : format.Writes levels r record members) {field : Field σ}
    (hfield : field ∈ r.fields) {value : Json}
    (hread : format.read (field.codec.text (field.get record)) = some value) :
    (some field.name, value) ∈ members := by
  obtain ⟨⟨key, written⟩, hmember, rfl, -, hwritten⟩ := exists_mem_of_forall₂ h.flip hfield
  rw [hread] at hwritten
  obtain rfl := Option.some.inj hwritten
  exact hmember

end Writes

namespace Lawful

theorem read_text (h : format.Lawful) (hlevels : levels ≤ 1)
    (hwrites : format.Writes levels r record members) :
    format.read ((format.record r start).text record) = some (.object members) := by
  refine h.written r start record members (hwrites.imp fun field member hmember => ?_)
  refine ⟨hmember.1, ?_, hmember.2.2⟩
  cases levels with
  | zero => exact hmember.2.1.succ
  | succ levels =>
    obtain rfl : levels = 0 := by omega
    exact hmember.2.1

/-- A record comes back if all of its fields do. -/
theorem returns_record (h : format.Lawful) (hlevels : levels ≤ 1)
    (hfields : ∀ field ∈ r.fields, format.Returns levels field.codec (field.get record)) :
    format.Returns (levels + 1) (format.record r start) record := by
  obtain ⟨members, hwrites⟩ := exists_writes fun field hfield =>
    (hfields field hfield).imp fun value hvalue => ⟨hvalue.1, hvalue.2.1⟩
  refine ⟨.object members, hwrites.within, h.read_text hlevels hwrites, ?_⟩
  refine h.read_object_iff.mpr ⟨hwrites.wellFormed, fun field hfield => ?_⟩
  obtain ⟨value, -, hwritten, hread⟩ := hfields field hfield
  exact ⟨some (field.get record), ⟨value, hwrites.mem hfield hwritten, hread⟩, rfl⟩

/-- A record is refused if one of its fields is. -/
theorem loses_record (h : format.Lawful) (hlevels : levels ≤ 1)
    (hfields : ∀ field ∈ r.fields, format.Returns levels field.codec (field.get record) ∨
      format.Loses levels field.codec (field.get record))
    (hlost : ∃ field ∈ r.fields, format.Loses levels field.codec (field.get record)) :
    format.Loses (levels + 1) (format.record r start) record := by
  obtain ⟨members, hwrites⟩ := exists_writes fun field hfield =>
    (hfields field hfield).elim
      (fun hreturns => hreturns.imp fun value hvalue => ⟨hvalue.1, hvalue.2.1⟩)
      (fun hloses => hloses.imp fun value hvalue => ⟨hvalue.1, hvalue.2.1⟩)
  obtain ⟨field, hfield, value, -, hwritten, hread⟩ := hlost
  exact ⟨.object members, hwrites.within, h.read_text hlevels hwrites,
    h.read_of_unread hfield (hwrites.mem hfield hwritten) hread⟩

end Lawful

end Format

end TransitTransfers
