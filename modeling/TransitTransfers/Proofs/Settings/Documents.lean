import TransitTransfers.Proofs.Json.Standard
import TransitTransfers.Settings.Document

/-!
# Documents of settings

What is written comes back, and what a document leaves out keeps its default.  All of
this is said of any lawful format.

* Overrides.  The fields that a document gives are the overrides of a record, and
  `Overrides.GivenBy` says how they stand in the members of an object.  An object is
  read as the defaults with its overrides in place, and only if no known field is given
  twice (`SlackTimes.read_object_iff`, `CostWeights.read_object_iff`,
  `Settings.read_object_iff`).
* Texts.  The text of settings is read back if all of their floating-point numbers are,
  and it is refused if one of them is not finite (`Settings.codec_returns`,
  `Settings.codec_loses`).
-/

namespace TransitTransfers

variable {format : Format}

/-! ## Overrides -/

/-- Slack times that are given in place of others. -/
structure SlackTimes.Overrides where
  boarding : Option Duration
  alighting : Option Duration
  changing : Option Duration

/-- Slack times with what is given in place. -/
def SlackTimes.override (slack : SlackTimes) (overrides : Overrides) : SlackTimes :=
  ⟨overrides.boarding.getD slack.boarding, overrides.alighting.getD slack.alighting,
    overrides.changing.getD slack.changing⟩

/-- The members of an object give these slack times and no others. -/
structure SlackTimes.Overrides.GivenBy (format : Format) (overrides : Overrides)
    (members : List (Option String × Json)) : Prop where
  boarding : Field.Gives members "board_slack" format.duration.read overrides.boarding
  alighting : Field.Gives members "alight_slack" format.duration.read overrides.alighting
  changing : Field.Gives members "transfer_slack" format.duration.read overrides.changing

/-- An object is read as the default slack times with what it gives in place. -/
theorem SlackTimes.read_object_iff (h : format.Lawful) {members : List (Option String × Json)}
    {slack : SlackTimes} :
    (codec format).read (.object members) = some slack ↔
      Field.WellFormed (record format).fields members ∧
        ∃ overrides : Overrides, overrides.GivenBy format members ∧
          slack = default.override overrides := by
  refine h.read_object_iff.trans (and_congr_right fun _ => ?_)
  simp only [record, List.forall_mem_cons, List.not_mem_nil, false_imp_iff, implies_true, and_true]
  constructor
  · rintro ⟨⟨boarding, hboarding, heq₁⟩, ⟨alighting, halighting, heq₂⟩,
      ⟨changing, hchanging, heq₃⟩⟩
    refine ⟨⟨boarding, alighting, changing⟩, ⟨hboarding, halighting, hchanging⟩, ?_⟩
    rw [override, ← heq₁, ← heq₂, ← heq₃]
  · rintro ⟨overrides, hgiven, rfl⟩
    exact ⟨⟨_, hgiven.boarding, rfl⟩, ⟨_, hgiven.alighting, rfl⟩, ⟨_, hgiven.changing, rfl⟩⟩

/-- Prices that are given in place of others. -/
structure CostWeights.Overrides where
  boarding : Option Cost
  changing : Option Cost
  walking : Option Float
  waiting : Option Float
  riding : Option Float

/-- A price list with what is given in place. -/
def CostWeights.override (cost : CostWeights) (overrides : Overrides) : CostWeights :=
  ⟨overrides.boarding.getD cost.boarding, overrides.changing.getD cost.changing,
    overrides.walking.getD cost.walking, overrides.waiting.getD cost.waiting,
    overrides.riding.getD cost.riding⟩

/-- The members of an object give these prices and no others. -/
structure CostWeights.Overrides.GivenBy (format : Format) (overrides : Overrides)
    (members : List (Option String × Json)) : Prop where
  boarding : Field.Gives members "board_cost" format.cost.read overrides.boarding
  changing : Field.Gives members "transfer_cost" format.cost.read overrides.changing
  walking : Field.Gives members "walk_reluctance" format.float.read overrides.walking
  waiting : Field.Gives members "wait_reluctance" format.float.read overrides.waiting
  riding : Field.Gives members "transit_reluctance" format.float.read overrides.riding

/-- An object is read as the default prices with what it gives in place. -/
theorem CostWeights.read_object_iff (h : format.Lawful) {members : List (Option String × Json)}
    {cost : CostWeights} :
    (codec format).read (.object members) = some cost ↔
      Field.WellFormed (record format).fields members ∧
        ∃ overrides : Overrides, overrides.GivenBy format members ∧
          cost = default.override overrides := by
  refine h.read_object_iff.trans (and_congr_right fun _ => ?_)
  simp only [record, List.forall_mem_cons, List.not_mem_nil, false_imp_iff, implies_true, and_true]
  constructor
  · rintro ⟨⟨boarding, hboarding, heq₁⟩, ⟨changing, hchanging, heq₂⟩, ⟨walking, hwalking, heq₃⟩,
      ⟨waiting, hwaiting, heq₄⟩, ⟨riding, hriding, heq₅⟩⟩
    refine ⟨⟨boarding, changing, walking, waiting, riding⟩,
      ⟨hboarding, hchanging, hwalking, hwaiting, hriding⟩, ?_⟩
    rw [override, ← heq₁, ← heq₂, ← heq₃, ← heq₄, ← heq₅]
  · rintro ⟨overrides, hgiven, rfl⟩
    exact ⟨⟨_, hgiven.boarding, rfl⟩, ⟨_, hgiven.changing, rfl⟩, ⟨_, hgiven.walking, rfl⟩,
      ⟨_, hgiven.waiting, rfl⟩, ⟨_, hgiven.riding, rfl⟩⟩

/-- Settings that are given in place of others. -/
structure Settings.Overrides where
  preferRules : Option Bool
  weighRisk : Option Bool
  riskWeight : Option Float
  riskFactor : Option Float
  cost : Option CostWeights
  slack : Option SlackTimes

/-- Settings with what is given in place. -/
def Settings.override (settings : Settings) (overrides : Overrides) : Settings :=
  ⟨overrides.preferRules.getD settings.preferRules, overrides.weighRisk.getD settings.weighRisk,
    overrides.riskWeight.getD settings.riskWeight, overrides.riskFactor.getD settings.riskFactor,
    overrides.cost.getD settings.cost, overrides.slack.getD settings.slack⟩

/-- The members of an object give these settings and no others. -/
structure Settings.Overrides.GivenBy (format : Format) (overrides : Overrides)
    (members : List (Option String × Json)) : Prop where
  preferRules : Field.Gives members "optimize_transfer_priority" format.bool.read
    overrides.preferRules
  weighRisk : Field.Gives members "optimize_transfer_wait_time" format.bool.read
    overrides.weighRisk
  riskWeight : Field.Gives members "wait_reluctance" format.float.read overrides.riskWeight
  riskFactor : Field.Gives members "min_safe_wait_time_factor" format.float.read
    overrides.riskFactor
  cost : Field.Gives members "cost" (CostWeights.codec format).read overrides.cost
  slack : Field.Gives members "slack" (SlackTimes.codec format).read overrides.slack

/-- An object is read as the default settings with what it gives in place. -/
theorem Settings.read_object_iff (h : format.Lawful) {members : List (Option String × Json)}
    {settings : Settings} :
    (codec format).read (.object members) = some settings ↔
      Field.WellFormed (record format).fields members ∧
        ∃ overrides : Overrides, overrides.GivenBy format members ∧
          settings = default.override overrides := by
  refine h.read_object_iff.trans (and_congr_right fun _ => ?_)
  simp only [record, List.forall_mem_cons, List.not_mem_nil, false_imp_iff, implies_true, and_true]
  constructor
  · rintro ⟨⟨preferRules, hrules, heq₁⟩, ⟨weighRisk, hrisk, heq₂⟩, ⟨riskWeight, hweight, heq₃⟩,
      ⟨riskFactor, hfactor, heq₄⟩, ⟨cost, hcost, heq₅⟩, ⟨slack, hslack, heq₆⟩⟩
    refine ⟨⟨preferRules, weighRisk, riskWeight, riskFactor, cost, slack⟩,
      ⟨hrules, hrisk, hweight, hfactor, hcost, hslack⟩, ?_⟩
    rw [override, ← heq₁, ← heq₂, ← heq₃, ← heq₄, ← heq₅, ← heq₆]
  · rintro ⟨overrides, hgiven, rfl⟩
    exact ⟨⟨_, hgiven.preferRules, rfl⟩, ⟨_, hgiven.weighRisk, rfl⟩, ⟨_, hgiven.riskWeight, rfl⟩,
      ⟨_, hgiven.riskFactor, rfl⟩, ⟨_, hgiven.cost, rfl⟩, ⟨_, hgiven.slack, rfl⟩⟩

/-! ## Texts -/

open Float.Model (UnpackedFloat)

/-- A number is equal to itself as a number. -/
theorem beq_self_of_isFinite {x : Float} (h : x.isFinite = true) : (x == x) = true := by
  change x.toModel.unpack.isFinite = true at h
  show (UnpackedFloat.compare x.toModel.unpack x.toModel.unpack == some .eq) = true
  cases hu : x.toModel.unpack with
  | notANumber | infinity =>
    rw [hu] at h
    cases h
  | zero => simp [UnpackedFloat.compare]
  | finite s => cases s <;> simp [UnpackedFloat.compare]

/-- A floating-point number is read back from its text. -/
def Format.ReadsBack (format : Format) (x : Float) : Prop := format.Returns 0 format.float x

theorem Format.Lawful.float_loses (h : format.Lawful) {x : Float} (hx : x.isFinite = false) :
    format.Loses 0 format.float x :=
  ⟨.null, trivial, h.infinite x hx, h.null⟩

/-- The text of slack times is read back. -/
theorem SlackTimes.codec_returns (h : format.Lawful) (slack : SlackTimes) :
    format.Returns 1 (codec format) slack := by
  refine h.returns_record (Nat.zero_le 1) ?_
  simp [record, h.duration]

/-- The floating-point numbers of a price list. -/
def CostWeights.floats (cost : CostWeights) : List Float :=
  [cost.walking, cost.waiting, cost.riding]

/-- The text of a price list is read back if its floating-point numbers are. -/
theorem CostWeights.codec_returns (h : format.Lawful) {cost : CostWeights}
    (hfloats : ∀ x ∈ cost.floats, format.ReadsBack x) :
    format.Returns 1 (codec format) cost := by
  simp only [floats, List.forall_mem_cons] at hfloats
  refine h.returns_record (Nat.zero_le 1) ?_
  simp only [record, List.forall_mem_cons]
  exact ⟨h.cost _, h.cost _, hfloats.1, hfloats.2.1, hfloats.2.2.1, by simp⟩

/-- The text of a price list is refused if one of its floating-point numbers is. -/
theorem CostWeights.codec_loses (h : format.Lawful) {cost : CostWeights}
    (hfloats : ∀ x ∈ cost.floats, format.ReadsBack x ∨ format.Loses 0 format.float x)
    (hlost : ∃ x ∈ cost.floats, format.Loses 0 format.float x) :
    format.Loses 1 (codec format) cost := by
  simp only [floats, List.forall_mem_cons] at hfloats
  refine h.loses_record (Nat.zero_le 1) ?_ ?_
  · simp only [record, List.forall_mem_cons]
    exact ⟨.inl (h.cost _), .inl (h.cost _), hfloats.1, hfloats.2.1, hfloats.2.2.1, by simp⟩
  · simp only [floats, List.exists_mem_cons_iff] at hlost
    simp only [record, List.exists_mem_cons_iff]
    rcases hlost with hwalking | hwaiting | hriding | ⟨x, hx, -⟩
    · exact .inr (.inr (.inl hwalking))
    · exact .inr (.inr (.inr (.inl hwaiting)))
    · exact .inr (.inr (.inr (.inr (.inl hriding))))
    · cases hx

/-- The floating-point numbers of settings. -/
def Settings.floats (settings : Settings) : List Float :=
  settings.riskWeight :: settings.riskFactor :: settings.cost.floats

/-! ## Documents -/

namespace Settings

/-- The text of settings is read back if their floating-point numbers are. -/
theorem codec_returns (h : format.Lawful) {settings : Settings}
    (hfloats : ∀ x ∈ settings.floats, format.ReadsBack x) :
    format.Returns 2 (codec format) settings := by
  simp only [floats, List.forall_mem_cons] at hfloats
  refine h.returns_record (Nat.le_refl 1) ?_
  simp only [record, List.forall_mem_cons]
  exact ⟨(h.bool _).succ, (h.bool _).succ, hfloats.1.succ, hfloats.2.1.succ,
    CostWeights.codec_returns h hfloats.2.2, SlackTimes.codec_returns h _, by simp⟩

/-- The text of settings is refused if one of their floating-point numbers is. -/
theorem codec_loses (h : format.Lawful) {settings : Settings}
    (hfloats : ∀ x ∈ settings.floats, format.ReadsBack x ∨ format.Loses 0 format.float x)
    (hlost : ∃ x ∈ settings.floats, format.Loses 0 format.float x) :
    format.Loses 2 (codec format) settings := by
  simp only [floats, List.forall_mem_cons] at hfloats
  obtain ⟨hweight, hfactor, hcost⟩ := hfloats
  refine h.loses_record (Nat.le_refl 1) ?_ ?_
  · simp only [record, List.forall_mem_cons]
    refine ⟨.inl (h.bool _).succ, .inl (h.bool _).succ, hweight.imp .succ .succ,
      hfactor.imp .succ .succ, ?_, .inl (SlackTimes.codec_returns h _), by simp⟩
    by_cases hprices : ∃ x ∈ settings.cost.floats, format.Loses 0 format.float x
    · exact .inr (CostWeights.codec_loses h hcost hprices)
    · refine .inl (CostWeights.codec_returns h fun x hx => ?_)
      exact (hcost x hx).resolve_right fun hlost => hprices ⟨x, hx, hlost⟩
  · simp only [floats, List.exists_mem_cons_iff] at hlost
    simp only [record, List.exists_mem_cons_iff]
    rcases hlost with hweight | hfactor | hprices
    · exact .inr (.inr (.inl hweight.succ))
    · exact .inr (.inr (.inr (.inl hfactor.succ)))
    · exact .inr (.inr (.inr (.inr (.inl (CostWeights.codec_loses h hcost hprices)))))

theorem agrees_self {settings : Settings} (h : ∀ x ∈ settings.floats, x.isFinite = true) :
    settings.agrees settings = true := by
  have hself : ∀ x ∈ settings.floats, (x == x) = true :=
    fun x hx => beq_self_of_isFinite (h x hx)
  simp only [floats, CostWeights.floats, List.forall_mem_cons] at hself
  simp [agrees, CostWeights.agrees, hself]

/-- What gives a known price or a known slack time twice is refused. -/
theorem read_of_givenTwice (h : format.Lawful) {members inner : List (Option String × Json)}
    (htwice : (some "cost", .object inner) ∈ members ∧
        Field.GivenTwice (CostWeights.record format).fields inner ∨
      (some "slack", .object inner) ∈ members ∧
        Field.GivenTwice (SlackTimes.record format).fields inner) :
    (codec format).read (.object members) = none := by
  rcases htwice with ⟨hmem, htwice⟩ | ⟨hmem, htwice⟩
  · exact h.read_of_unread (List.mem_of_getElem? (i := 4) rfl) hmem (h.read_of_givenTwice htwice)
  · exact h.read_of_unread (List.mem_of_getElem? (i := 5) rfl) hmem (h.read_of_givenTwice htwice)

/-- What is written is read back as what it was.  That assumes that the floating-point
numbers are, or else one of them is not finite, and then the text is refused.  An object
is read as the defaults with what it gives in place, in settings and in both of their
sections. -/
theorem documents_faithful (h : format.Lawful) :
    (∀ settings : Settings, (∀ x ∈ settings.floats, x.isFinite = true → format.ReadsBack x) →
      ((∀ x ∈ settings.floats, x.isFinite = true) →
        read format (settings.text format) = some settings ∧ settings.agrees settings = true) ∧
      ((∃ x ∈ settings.floats, x.isFinite = false) →
        read format (settings.text format) = none)) ∧
    (∀ text members, format.read text = some (.object members) →
      (∀ settings, read format text = some settings ↔
        Field.WellFormed (record format).fields members ∧
          ∃ overrides : Overrides, overrides.GivenBy format members ∧
            settings = default.override overrides) ∧
      (Field.GivenTwice (record format).fields members → read format text = none) ∧
      ∀ inner,
        ((some "cost", .object inner) ∈ members ∧
          Field.GivenTwice (CostWeights.record format).fields inner →
            read format text = none) ∧
        ((some "slack", .object inner) ∈ members ∧
          Field.GivenTwice (SlackTimes.record format).fields inner →
            read format text = none)) ∧
    (∀ members cost, (CostWeights.codec format).read (.object members) = some cost ↔
      Field.WellFormed (CostWeights.record format).fields members ∧
        ∃ overrides : CostWeights.Overrides, overrides.GivenBy format members ∧
          cost = CostWeights.default.override overrides) ∧
    ∀ members slack, (SlackTimes.codec format).read (.object members) = some slack ↔
      Field.WellFormed (SlackTimes.record format).fields members ∧
        ∃ overrides : SlackTimes.Overrides, overrides.GivenBy format members ∧
          slack = SlackTimes.default.override overrides := by
  refine ⟨fun settings hreads => ⟨fun hfinite => ⟨?_, agrees_self hfinite⟩, fun hlost => ?_⟩,
    fun text members hmembers => ?_,
    fun members cost => CostWeights.read_object_iff h,
    fun members slack => SlackTimes.read_object_iff h⟩
  · obtain ⟨value, -, hwritten, hread⟩ :=
      codec_returns h fun x hx => hreads x hx (hfinite x hx)
    exact Option.bind_eq_some_iff.mpr ⟨value, hwritten, hread⟩
  · have hfloats : ∀ x ∈ settings.floats,
        format.ReadsBack x ∨ format.Loses 0 format.float x := by
      intro x hx
      cases hfinite : x.isFinite with
      | true => exact .inl (hreads x hx hfinite)
      | false => exact .inr (h.float_loses hfinite)
    obtain ⟨value, -, hwritten, hread⟩ :=
      codec_loses h hfloats (hlost.imp fun x hx => ⟨hx.1, h.float_loses hx.2⟩)
    rw [read, text, hwritten]
    exact hread
  · have hread : read format text = (codec format).read (.object members) := by
      rw [read, hmembers, Option.bind_some]
    rw [hread]
    exact ⟨fun settings => read_object_iff h, h.read_of_givenTwice, fun inner =>
      ⟨fun htwice => read_of_givenTwice h (.inl htwice),
        fun htwice => read_of_givenTwice h (.inr htwice)⟩⟩

/-- Settings with numbers of their own are written and read back, and an infinite
factor is refused.  A document with one price, and a field that is not known, is read
as the defaults with this price.  One that gives a slack time twice is refused. -/
theorem documents_faithful_samples :
    (∃ settings : Settings, settings.riskWeight = 0.75 ∧ settings.slack.alighting.seconds = 15 ∧
      read .standard (settings.text .standard) = some settings ∧
      settings.agrees settings = true) ∧
    read .standard (text .standard { default with riskFactor := 1 / 0 }) = none ∧
    read .standard "\x7b\"note\":null,\"cost\":\x7b\"board_cost\":300\x7d\x7d" =
      some { default with cost.boarding := ⟨300, by decide, by decide⟩ } ∧
    read .standard "\x7b\"slack\":\x7b\"board_slack\":1,\"board_slack\":2\x7d\x7d" = none := by
  have hfaithful := documents_faithful Format.standard_lawful
  refine ⟨⟨{ default with riskWeight := 0.75, slack.alighting := ⟨15, by decide⟩ }, rfl, rfl,
    (hfaithful.1 _ fun x hx hfinite => ?_).1 (by decide +kernel)⟩,
    (hfaithful.1 _ fun x hx hfinite => ?_).2 (by decide +kernel), ?_, ?_⟩
  · refine Format.standard_float ?_
    revert x
    decide +kernel
  · refine Format.standard_float ?_
    revert x
    decide +kernel
  · let price : Json := .object [(some "board_cost", .number ⟨false, 300, 0, true⟩)]
    have hcost : (CostWeights.codec .standard).read price =
        some { default.cost with boarding := ⟨300, by decide, by decide⟩ } := by
      refine (hfaithful.2.2.1 _ _).mpr ⟨⟨by simp, by simp [CostWeights.record]⟩,
        ⟨some ⟨300, by decide, by decide⟩, none, none, none, none⟩, ?_, rfl⟩
      constructor <;> simp [Field.Gives]
      rfl
    refine ((hfaithful.2.1 _ [(some "note", .null), (some "cost", price)] (by cbv)).1 _).mpr
      ⟨⟨by simp, by simp [record]⟩, ⟨none, none, none, none, some _, none⟩, ?_, rfl⟩
    constructor <;> simp [Field.Gives, hcost]
  · let times : Json := .object [(some "board_slack", .number ⟨false, 1, 0, true⟩),
      (some "board_slack", .number ⟨false, 2, 0, true⟩)]
    refine ((hfaithful.2.1 _ [(some "slack", times)] (by cbv)).2.2 _).2
      ⟨List.mem_singleton_self _, ?_⟩
    simp [Field.GivenTwice, SlackTimes.record]

end Settings

end TransitTransfers
