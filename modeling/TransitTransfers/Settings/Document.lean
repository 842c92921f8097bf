import TransitTransfers.Json.Format
import TransitTransfers.Settings

/-!
# Settings documents

Settings are kept in documents, in whatever format.  A field that a document leaves
out keeps its default.  The sections for prices and slack have defaults of their own.
-/

namespace TransitTransfers

/-! ## The fields -/

/-- The fields of a price list. -/
def CostWeights.record (format : Format) : Record CostWeights where
  fields :=
    [⟨"board_cost", format.cost, (·.boarding), fun x w => { w with boarding := x },
        fun _ _ => rfl⟩,
     ⟨"transfer_cost", format.cost, (·.changing), fun x w => { w with changing := x },
        fun _ _ => rfl⟩,
     ⟨"walk_reluctance", format.float, (·.walking), fun x w => { w with walking := x },
        fun _ _ => rfl⟩,
     ⟨"wait_reluctance", format.float, (·.waiting), fun x w => { w with waiting := x },
        fun _ _ => rfl⟩,
     ⟨"transit_reluctance", format.float, (·.riding), fun x w => { w with riding := x },
        fun _ _ => rfl⟩]
  plain := by simp [Json.isPlain]
  distinct := by simp
  separate := by simp
  ext := by
    rintro ⟨_, _, _, _, _⟩ ⟨_, _, _, _, _⟩
    simp

/-- The fields of slack times. -/
def SlackTimes.record (format : Format) : Record SlackTimes where
  fields :=
    [⟨"board_slack", format.duration, (·.boarding), fun x s => { s with boarding := x },
        fun _ _ => rfl⟩,
     ⟨"alight_slack", format.duration, (·.alighting), fun x s => { s with alighting := x },
        fun _ _ => rfl⟩,
     ⟨"transfer_slack", format.duration, (·.changing), fun x s => { s with changing := x },
        fun _ _ => rfl⟩]
  plain := by simp [Json.isPlain]
  distinct := by simp
  separate := by simp
  ext := by
    rintro ⟨_, _, _⟩ ⟨_, _, _⟩
    simp

/-- How price lists are kept. -/
def CostWeights.codec (format : Format) : Codec CostWeights :=
  format.record (CostWeights.record format) .default

/-- How slack times are kept. -/
def SlackTimes.codec (format : Format) : Codec SlackTimes :=
  format.record (SlackTimes.record format) .default

/-- The fields of settings. -/
def Settings.record (format : Format) : Record Settings where
  fields :=
    [⟨"optimize_transfer_priority", format.bool, (·.preferRules),
        fun x s => { s with preferRules := x }, fun _ _ => rfl⟩,
     ⟨"optimize_transfer_wait_time", format.bool, (·.weighRisk),
        fun x s => { s with weighRisk := x }, fun _ _ => rfl⟩,
     ⟨"wait_reluctance", format.float, (·.riskWeight),
        fun x s => { s with riskWeight := x }, fun _ _ => rfl⟩,
     ⟨"min_safe_wait_time_factor", format.float, (·.riskFactor),
        fun x s => { s with riskFactor := x }, fun _ _ => rfl⟩,
     ⟨"cost", CostWeights.codec format, (·.cost), fun x s => { s with cost := x },
        fun _ _ => rfl⟩,
     ⟨"slack", SlackTimes.codec format, (·.slack), fun x s => { s with slack := x },
        fun _ _ => rfl⟩]
  plain := by simp [Json.isPlain]
  distinct := by simp
  separate := by simp
  ext := by
    rintro ⟨_, _, _, _, _, _⟩ ⟨_, _, _, _, _, _⟩
    simp

/-- How settings are kept. -/
def Settings.codec (format : Format) : Codec Settings :=
  format.record (Settings.record format) .default

/-! ## The documents -/

namespace Settings

/-- The settings that the text of a document gives. -/
def read (format : Format) (text : String) : Option Settings :=
  (format.read text).bind (codec format).read

/-- The document of settings. -/
def text (format : Format) (settings : Settings) : String := (codec format).text settings

end Settings

end TransitTransfers
