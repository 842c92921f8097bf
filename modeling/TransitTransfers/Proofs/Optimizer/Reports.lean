import TransitTransfers.Proofs.Narrowing.Stages
import TransitTransfers.Proofs.Optimizer.Listening
import TransitTransfers.Proofs.Optimizer.Selection

/-!
# What the log says

A listener at level `debug` is told how the alternatives of an itinerary were
narrowed down.  This module reads the log against the choices.

* `Report` is what is told of a stage, `Report.Describes` says when it is true,
  and `stageText_eq_ok_iff` proves it of every text of a stage.
* `Narrowing.pairwise_stages` and `Report.Describes.le` compare the stages with
  each other: a later report counts no more, and finds the given itinerary only
  if the earlier one does.
* `Narrates` says what the log of one itinerary is, line by line, and
  `narrates_of_choose` proves it.  `log_tells_narrowing` is the result for a
  batch.
-/

namespace TransitTransfers

/-! ## Stages, one after the other -/

namespace Criterion

theorem least_sublist {α : Type} (criterion : Criterion α) (items : List α) :
    (criterion.least items).Sublist items := by
  rw [least_eq_filter]
  exact List.filter_sublist

end Criterion

namespace Narrowing

/-- What remains after a criterion is among what remained before it, in the
same order. -/
theorem pairwise_stages {α : Type} (criteria : List (Criterion α)) (items : List α) :
    (items :: (stages criteria items).map Prod.snd).Pairwise fun before after =>
      after.Sublist before := by
  induction criteria generalizing items with
  | nil => exact List.pairwise_singleton _ items
  | cons criterion criteria ih =>
    rw [stages, List.map_cons]
    have hleast := criterion.least_sublist items
    refine List.Pairwise.cons (fun left hleft => ?_) (ih (criterion.least items))
    rcases List.mem_cons.mp hleft with rfl | hlater
    · exact hleast
    · exact (List.rel_of_pairwise_cons (ih (criterion.least items)) hlater).trans hleast

theorem map_fst_stages {α : Type} (criteria : List (Criterion α)) (items : List α) :
    (stages criteria items).map Prod.fst = criteria.map (·.name) := by
  induction criteria generalizing items with
  | nil => rfl
  | cons criterion criteria ih => rw [stages, List.map_cons, List.map_cons, ih]

end Narrowing

/-! ## Reports -/

/-- What a listener is told of a stage. -/
structure Report where
  stage : String
  /-- How many alternatives are left. -/
  count : Nat
  /-- Whether the given itinerary is said to be among them. -/
  kept : Bool
  /-- The given itinerary, summed up. -/
  given : String
  /-- The alternatives that are left, summed up, each with the mark of the given
  itinerary or without it. -/
  lines : List (Bool × String)
deriving DecidableEq

namespace Report

/-- A line for an alternative that is left. -/
def lineText (line : Bool × String) : String :=
  (if line.1 then "  = " else "  + ") ++ line.2

/-- A report as text. -/
def text (report : Report) : String :=
  let kept := if report.kept then "kept" else "dropped"
  s!"{report.stage}: {report.count} alternative(s), original {kept}\n  * {report.given}\n" ++
    "\n".intercalate (report.lines.map lineText)

/-- Lines sum up itineraries, one by one, and mark those that change where
`given` does. -/
def Lists (given : Itinerary) (left : List Itinerary) (lines : List (Bool × String)) : Prop :=
  List.Forall₂ (fun itinerary line =>
    line.1 = itinerary.sameStretches given ∧ itinerary.summary = .ok line.2) left lines

/-- A report tells the truth about the alternatives of `given` that are left
after a stage. -/
structure Describes (report : Report) (given : Itinerary) (stage : String)
    (left : List Itinerary) : Prop where
  stage : report.stage = stage
  count : report.count = left.length
  summary : given.summary = .ok report.given
  lines : Lists given left report.lines
  /-- The given itinerary is said to be kept if some line is marked. -/
  kept : report.kept = true ↔ ∃ line ∈ report.lines, line.1 = true

variable {report : Report} {given : Itinerary} {stage : String} {left : List Itinerary}

theorem Lists.exists_marked_iff {lines : List (Bool × String)} (h : Lists given left lines) :
    (∃ line ∈ lines, line.1 = true) ↔ left.any (·.sameStretches given) = true := by
  rw [List.any_eq_true]
  constructor
  · rintro ⟨line, hline, hmarked⟩
    obtain ⟨itinerary, hitinerary, hsame, -⟩ := exists_mem_of_forall₂ h hline
    exact ⟨itinerary, hitinerary, hsame ▸ hmarked⟩
  · rintro ⟨itinerary, hitinerary, hsame⟩
    obtain ⟨line, hline, hmark, -⟩ := exists_mem_of_forall₂ h.flip hitinerary
    exact ⟨line, hline, hmark.trans hsame⟩

theorem Describes.kept_eq (h : report.Describes given stage left) :
    report.kept = left.any (·.sameStretches given) := by
  rw [Bool.eq_iff_iff, h.kept, h.lines.exists_marked_iff]

/-- Of fewer alternatives a report counts no more, and the given itinerary is
only kept if it was. -/
theorem Describes.le {later : Report} {stage' : String} {left' : List Itinerary}
    (h : report.Describes given stage left) (h' : later.Describes given stage' left')
    (hsub : left'.Sublist left) :
    later.count ≤ report.count ∧ (later.kept = true → report.kept = true) := by
  rw [h.count, h'.count, h.kept_eq, h'.kept_eq]
  refine ⟨hsub.length_le, fun hkept => ?_⟩
  obtain ⟨itinerary, hitinerary, hsame⟩ := List.any_eq_true.mp hkept
  exact List.any_eq_true.mpr ⟨itinerary, hsub.subset hitinerary, hsame⟩

end Report

namespace Optimizer

variable {optimizer : Optimizer} {pricing : Option RiskPricing} {given : Itinerary}
  {stage : String} {left : List Itinerary} {log : List (Level × String)}

theorem mapM_line_eq_ok_iff {lines : List String} :
    left.mapM (fun itinerary => do
        let summary ← itinerary.summary
        return (if itinerary.sameStretches given then "  = " else "  + ") ++ summary) =
          .ok lines ↔
      ∃ marked, Report.Lists given left marked ∧ lines = marked.map Report.lineText := by
  rw [mapM_eq_ok_iff]
  constructor
  · intro h
    refine forall₂_exists_map (h.imp fun itinerary text hline => ?_)
    obtain ⟨summary, hsummary, hline⟩ := bind_eq_ok_iff.mp hline
    exact ⟨(itinerary.sameStretches given, summary), ⟨rfl, hsummary⟩,
      (pure_eq_ok_iff.mp hline).symm⟩
  · rintro ⟨marked, hmarked, rfl⟩
    rw [List.forall₂_map_right_iff]
    refine hmarked.imp fun itinerary line hline => ?_
    rw [hline.2, Report.lineText, hline.1]
    rfl

/-- The text of a stage is that of a report which describes it. -/
theorem stageText_eq_ok_iff {text : String} :
    stageText given stage left = .ok text ↔
      ∃ report : Report, report.Describes given stage left ∧ text = report.text := by
  unfold stageText
  simp only [bind_eq_ok_iff, mapM_line_eq_ok_iff, pure_eq_ok_iff]
  constructor
  · rintro ⟨lines, ⟨marked, hmarked, rfl⟩, summary, hsummary, rfl⟩
    refine ⟨⟨stage, left.length, left.any (·.sameStretches given), summary, marked⟩,
      ⟨rfl, rfl, hsummary, hmarked, hmarked.exists_marked_iff.symm⟩, ?_⟩
    rw [Report.text, List.length_map, ← hmarked.length_eq]
  · rintro ⟨report, hreport, rfl⟩
    refine ⟨report.lines.map Report.lineText, ⟨report.lines, hreport.lines, rfl⟩, report.given,
      hreport.summary, ?_⟩
    rw [Report.text, hreport.stage, hreport.count, hreport.kept_eq, List.length_map,
      hreport.lines.length_eq]

/-- Telling of a stage leaves one report in the log. -/
theorem observe_tellStage_iff {u : Unit} :
    (tellStage given stage left).observe (some .debug) = .ok (u, log) ↔
      ∃ report : Report, report.Describes given stage left ∧ log = [(.debug, report.text)] := by
  rw [tellStage, Run.observe_say_eq_ok_iff rfl]
  simp only [stageText_eq_ok_iff]
  constructor
  · rintro ⟨_, ⟨report, hreport, rfl⟩, rfl⟩
    exact ⟨report, hreport, rfl⟩
  · rintro ⟨report, hreport, rfl⟩
    exact ⟨_, ⟨report, hreport, rfl⟩, rfl⟩

/-! ## Listing the alternatives -/

/-- What is told of a chain that makes no itinerary. -/
def discardingText : String := "Discarding a permutation that breaks the itinerary order"

/-- The notes on chains that made no alternative.  There are none if the
itinerary rides on trips of the timetable. -/
structure Discards (optimizer : Optimizer) (given : Itinerary) (alternatives : List Alternative)
    (notes : List (Level × String)) : Prop where
  counted : ∃ offers chains, optimizer.planner.offers given = .ok offers ∧
    Planner.chainsOf given offers = .ok chains ∧
      notes = List.replicate (chains.length - alternatives.length) (.debug, discardingText)
  silent : optimizer.table.Built → given.RidesOn optimizer.table → notes = []

theorem length_filter_isNone_add {α : Type} (xs : List (Option α)) :
    (xs.filter Option.isNone).length + (xs.filterMap id).length = xs.length := by
  induction xs with
  | nil => rfl
  | cons x xs ih =>
    cases x with
    | none =>
      rw [List.filter_cons_of_pos rfl, List.filterMap_cons_none rfl]
      simp only [List.length_cons]
      omega
    | some a =>
      rw [List.filter_cons_of_neg Bool.false_ne_true, List.filterMap_cons_some (by rfl)]
      simp only [List.length_cons]
      omega

/-- Nothing but discarded chains is told while the alternatives are listed. -/
theorem discards_of_listAlternatives (hchanges : given.changes ≠ [])
    {alternatives : List Alternative}
    (h : (optimizer.listAlternatives given).observe (some .debug) = .ok (alternatives, log)) :
    optimizer.planner.alternatives given = .ok alternatives ∧
      optimizer.Discards given alternatives log := by
  have hlisted : optimizer.planner.alternatives given = .ok alternatives := by
    have houtcome := (Run.observe_eq_ok_iff.mp h).2
    rwa [outcome_listAlternatives hchanges, liftFault_eq_ok_iff] at houtcome
  have htrace : Level.trace.reaches (some .debug) = false := rfl
  rw [listAlternatives] at h
  simp only [tellFound, tellChains, Run.observe_ofFaulty_bind_eq_ok_iff,
    Run.observe_forM_say_bind_of_not_reaches htrace] at h
  obtain ⟨offers, hoffers, chains, hchains, retimed, hretimed, htell⟩ := h
  obtain ⟨_, notes, _, hnotes, hdone, rfl⟩ := Run.observe_bind_eq_ok_iff.mp htell
  obtain ⟨rfl, rfl⟩ := Run.observe_pure_eq_ok_iff.mp hdone
  obtain ⟨lines, hlines, rfl⟩ := (Run.observe_forM_say_eq_ok_iff (by rfl)).mp hnotes
  -- There is one line for each chain that was not retimed.
  have hlength : (retimed.filter Option.isNone).length =
      chains.length - (retimed.filterMap id).length := by
    have hchained := (mapM_eq_ok_iff.mp hretimed).length_eq
    have hparts := length_filter_isNone_add retimed
    omega
  have hreplicate :
      lines = List.replicate (retimed.filter Option.isNone).length discardingText := by
    rw [List.mapM_pure, pure_eq_ok_iff, List.map_const'] at hlines
    exact hlines.symm
  simp only [List.append_nil, hreplicate, List.map_replicate, hlength]
  refine ⟨hlisted, ⟨offers, chains, hoffers, hchains, rfl⟩, fun hbuilt hrides => ?_⟩
  obtain ⟨_, _, hoffers', hchains', -, hmakes⟩ :=
    Planner.alternatives_spec hbuilt hrides hchanges hlisted
  obtain rfl := Except.ok.inj (hoffers.symm.trans hoffers')
  obtain rfl := Except.ok.inj (hchains.symm.trans hchains')
  rw [hmakes.length_eq, Nat.sub_self]
  rfl

/-! ## Narrowing down -/

/-- The names of the criteria, in the order in which they count. -/
def stageNames (optimizer : Optimizer) : List String :=
  (if optimizer.settings.preferRules then ["transfer-priority"] else []) ++
    [if optimizer.settings.weighRisk then "wait-time" else "generalized-cost", "tie-break"]

theorem map_name_criteria (optimizer : Optimizer) :
    optimizer.criteria.map (·.name) = optimizer.stageNames := by
  rw [criteria, stageNames]
  cases optimizer.settings.preferRules <;> rfl

/-- What is told while choices are narrowed down is one report for each
criterion. -/
theorem observe_narrowDown {choices block : List Choice}
    (h : (optimizer.narrowDown given choices).observe (some .debug) = .ok (block, log)) :
    block = Narrowing.narrow optimizer.criteria choices ∧
      ∃ reports : List Report, List.Forall₂
        (fun stage report => report.Describes given stage.1 (stage.2.map (·.itinerary)))
          (Narrowing.stages optimizer.criteria choices) reports ∧
            log = reports.map fun report => (.debug, report.text) := by
  obtain ⟨_, _, _, htold, hdone, rfl⟩ := Run.observe_bind_eq_ok_iff.mp h
  obtain ⟨rfl, rfl⟩ := Run.observe_pure_eq_ok_iff.mp hdone
  obtain ⟨lines, hlines, rfl⟩ := (Run.observe_forM_say_eq_ok_iff (by rfl)).mp htold
  obtain ⟨reports, hreports, rfl⟩ := forall₂_exists_map
    ((mapM_eq_ok_iff.mp hlines).imp fun _ _ htext => stageText_eq_ok_iff.mp htext)
  refine ⟨rfl, reports, hreports, ?_⟩
  rw [List.append_nil, List.map_map]
  rfl

/-- The alternatives of an itinerary are narrowed down to a block, and told of
by reports.  The first report is `listed`, on all alternatives. -/
structure Narrows (optimizer : Optimizer) (pricing : Option RiskPricing) (given : Itinerary)
    (alternatives : List Alternative) (listed : Report) (block : List Choice)
    (candidates : List Choice) (reports : List Report) : Prop where
  /-- Some alternative is not forbidden. -/
  allowed : ∃ alternative ∈ alternatives, alternative.isForbidden = false
  /-- The candidates are those that are not forbidden, with their costs. -/
  assessed : List.Forall₂ (Assesses pricing given) (alternatives.filter (!·.isForbidden)) candidates
  /-- The block holds the best of them. -/
  left : block = Narrowing.best optimizer.criteria candidates
  /-- There is a report for each criterion, in their order. -/
  names : reports.map Report.stage = optimizer.stageNames
  /-- It describes the candidates that are best by all criteria up to it. -/
  stages : ∀ k (report : Report), reports[k]? = some report → ∃ criterion,
    optimizer.criteria[k]? = some criterion ∧ report.Describes given criterion.name
      ((Narrowing.best (optimizer.criteria.take (k + 1)) candidates).map (·.itinerary))
  /-- No report counts more than one before it. -/
  counts : ((listed :: reports).map Report.count).Pairwise (· ≥ ·)
  /-- No report keeps the given itinerary if one before it does not. -/
  kept : ((listed :: reports).map Report.kept).Pairwise fun before after =>
    after = true → before = true
  /-- The last report counts the block, and keeps the given itinerary exactly if
  a choice changes nothing. -/
  last : ∃ report, reports.getLast? = some report ∧ report.count = block.length ∧
    (report.kept = true ↔ ∃ choice ∈ block, choice.isUnchanged = true)

/-- The itineraries that are left before the first criterion and after each of
them. -/
theorem pairwise_left (optimizer : Optimizer) {alternatives : List Alternative}
    {choices : List Choice}
    (hassessed : List.Forall₂ (Assesses pricing given) (alternatives.filter (!·.isForbidden))
      choices) :
    (alternatives.map (·.itinerary) :: (Narrowing.stages optimizer.criteria choices).map
      fun stage => stage.2.map (·.itinerary)).Pairwise fun before after =>
        after.Sublist before := by
  have hitineraries : choices.map (·.itinerary) =
      (alternatives.filter (!·.isForbidden)).map (·.itinerary) := by
    rw [← List.forall₂_eq_eq_eq, List.forall₂_map_left_iff, List.forall₂_map_right_iff]
    exact hassessed.flip.imp fun _ _ hassesses => hassesses.itinerary
  have hlisted : (choices.map (·.itinerary)).Sublist (alternatives.map (·.itinerary)) := by
    rw [hitineraries]
    exact List.filter_sublist.map _
  obtain ⟨hfirst, hlater⟩ :=
    List.pairwise_cons.mp (Narrowing.pairwise_stages optimizer.criteria choices)
  rw [List.pairwise_map] at hlater
  refine .cons (fun left hleft => ?_) ?_
  · obtain ⟨stage, hstage, rfl⟩ := List.mem_map.mp hleft
    exact ((hfirst stage.2 (List.mem_map_of_mem hstage)).map _).trans hlisted
  · rw [List.pairwise_map]
    exact hlater.imp fun hsub => hsub.map _

/-- The candidates that change nothing are those that change where the given
itinerary does. -/
theorem exists_isUnchanged_iff {alternatives : List Alternative} {candidates block : List Choice}
    (hassessed : List.Forall₂ (Assesses pricing given) alternatives candidates)
    (hblock : block ⊆ candidates) :
    (∃ choice ∈ block, choice.isUnchanged = true) ↔
      (block.map (·.itinerary)).any (·.sameStretches given) = true := by
  have hsame : ∀ choice ∈ block, choice.isUnchanged = choice.itinerary.sameStretches given := by
    intro choice hchoice
    obtain ⟨alternative, -, hassesses⟩ := exists_mem_of_forall₂ hassessed (hblock hchoice)
    rw [hassesses.isUnchanged, hassesses.itinerary]
  rw [List.any_map, List.any_eq_true]
  refine exists_congr fun choice => and_congr_right fun hchoice => ?_
  rw [hsame choice hchoice]
  rfl

/-- The last report describes what is left in the end. -/
theorem exists_last_report {choices : List Choice} {reports : List Report}
    (hreports : List.Forall₂
      (fun stage report => report.Describes given stage.1 (stage.2.map (·.itinerary)))
        (Narrowing.stages optimizer.criteria choices) reports) :
    ∃ report stage, reports.getLast? = some report ∧ Report.Describes report given stage
      ((Narrowing.narrow optimizer.criteria choices).map (·.itinerary)) := by
  have hstages := congrArg List.length (Narrowing.map_fst_stages optimizer.criteria choices)
  rw [List.length_map, List.length_map, hreports.length_eq] at hstages
  have hsome : reports ≠ [] := by
    intro hnone
    rw [hnone, criteria] at hstages
    simp at hstages
  have hlast := List.getLast?_eq_some_getLast hsome
  rw [List.getLast?_eq_getElem?] at hlast
  obtain ⟨stage, hstage, hdescribes⟩ := exists_getElem?_of_forall₂ hreports hlast
  rw [← hreports.length_eq, ← List.getLast?_eq_getElem?] at hstage
  refine ⟨_, stage.1, List.getLast?_eq_some_getLast hsome, ?_⟩
  rw [Narrowing.narrow_eq_getLast?, hstage]
  exact hdescribes

/-- The reports that are told of choices narrow the alternatives down to what
is left of the choices. -/
theorem narrows_of_reports {alternatives : List Alternative} {choices : List Choice}
    {listed : Report} {reports : List Report}
    (hassessed : List.Forall₂ (Assesses pricing given) (alternatives.filter (!·.isForbidden))
      choices) (hchoices : choices ≠ [])
    (hlisted : listed.Describes given "permutations" (alternatives.map (·.itinerary)))
    (hreports : List.Forall₂
      (fun stage report => report.Describes given stage.1 (stage.2.map (·.itinerary)))
        (Narrowing.stages optimizer.criteria choices) reports) :
    optimizer.Narrows pricing given alternatives listed
      (Narrowing.narrow optimizer.criteria choices) choices reports := by
  have hleft : List.Forall₂ (fun left report => ∃ stage, Report.Describes report given stage left)
      (alternatives.map (·.itinerary) :: (Narrowing.stages optimizer.criteria choices).map
        fun stage => stage.2.map (·.itinerary)) (listed :: reports) := by
    refine .cons ⟨_, hlisted⟩ ?_
    rw [List.forall₂_map_left_iff]
    exact hreports.imp fun _ _ hreport => ⟨_, hreport⟩
  have hpairwise := optimizer.pairwise_left hassessed
  have hnames : reports.map Report.stage = optimizer.stageNames := by
    rw [← map_name_criteria, ← Narrowing.map_fst_stages optimizer.criteria choices,
      ← List.forall₂_eq_eq_eq, List.forall₂_map_left_iff, List.forall₂_map_right_iff]
    exact hreports.flip.imp fun _ _ hreport => hreport.stage
  refine ⟨?_, hassessed, Narrowing.narrow_eq_best _ _, hnames, ?_, ?_, ?_, ?_⟩
  · have hsome : alternatives.filter (!·.isForbidden) ≠ [] := by
      intro hnone
      exact hchoices ((forall₂_nil_iff hassessed).mp hnone)
    obtain ⟨alternative, hmem⟩ := List.exists_mem_of_ne_nil _ hsome
    obtain ⟨hmem, hallowed⟩ := List.mem_filter.mp hmem
    exact ⟨alternative, hmem, by simpa using hallowed⟩
  · intro k report hreport
    obtain ⟨stage, hstage, hdescribes⟩ := exists_getElem?_of_forall₂ hreports hreport
    rw [Narrowing.stages_getElem?, Option.map_eq_some_iff] at hstage
    obtain ⟨criterion, hcriterion, rfl⟩ := hstage
    exact ⟨criterion, hcriterion, hdescribes⟩
  · rw [List.pairwise_map]
    exact pairwise_of_forall₂ (fun ⟨_, h⟩ ⟨_, h'⟩ hsub => (h.le h' hsub).1) hleft hpairwise
  · rw [List.pairwise_map]
    exact pairwise_of_forall₂ (fun ⟨_, h⟩ ⟨_, h'⟩ hsub => (h.le h' hsub).2) hleft hpairwise
  · obtain ⟨report, stage, hlast, hdescribes⟩ := exists_last_report hreports
    refine ⟨report, hlast, by rw [hdescribes.count, List.length_map], ?_⟩
    rw [hdescribes.kept_eq, exists_isUnchanged_iff hassessed]
    exact fun choice hchoice => Narrowing.mem_of_mem_narrow hchoice

/-! ## One itinerary -/

/-- What is told of an itinerary that gets no choices, in front of its legs. -/
def droppingText : String := "Dropping itinerary, every alternative uses a forbidden transfer: "

/-- An itinerary is dropped, and told of. -/
structure Drops (given : Itinerary) (alternatives : List Alternative) (block : List Choice)
    (log : List (Level × String)) : Prop where
  forbidden : ∀ alternative ∈ alternatives, alternative.isForbidden = true
  empty : block = []
  told : ∃ text, given.text = .ok text ∧ log = [(.debug, droppingText ++ text)]

/-- The log of an itinerary with several rides.  It opens with a report on all
alternatives.  Then either the itinerary is dropped, or there is a report for
each criterion. -/
def Narrates (optimizer : Optimizer) (pricing : Option RiskPricing) (given : Itinerary)
    (block : List Choice) (log : List (Level × String)) : Prop :=
  ∃ alternatives notes listed rest,
    optimizer.planner.alternatives given = .ok alternatives ∧
      log = notes ++ (.debug, listed.text) :: rest ∧
        optimizer.Discards given alternatives notes ∧
          Report.Describes listed given "permutations" (alternatives.map (·.itinerary)) ∧
            (Drops given alternatives block rest ∨ ∃ candidates reports,
              optimizer.Narrows pricing given alternatives listed block candidates reports ∧
                rest = reports.map fun report => (.debug, report.text))

theorem narrates_of_choose (hchanges : given.changes ≠ []) {block : List Choice}
    (h : (optimizer.choose pricing given).observe (some .debug) = .ok (block, log)) :
    optimizer.Narrates pricing given block log := by
  have hempty : ¬given.changes.isEmpty = true := by
    simpa using hchanges
  rw [choose, if_neg hempty] at h
  obtain ⟨alternatives, notes, _, hlist, htell, rfl⟩ := Run.observe_bind_eq_ok_iff.mp h
  obtain ⟨_, _, rest, htold, hassess, rfl⟩ := Run.observe_bind_eq_ok_iff.mp htell
  obtain ⟨listed, hlisted, rfl⟩ := observe_tellStage_iff.mp htold
  obtain ⟨assessed, hassessed, hend⟩ := Run.observe_ofFaulty_bind_eq_ok_iff.mp hassess
  obtain ⟨halternatives, hdiscards⟩ := discards_of_listAlternatives hchanges hlist
  have hcandidates := assessed_spec hassessed
  refine ⟨alternatives, notes, listed, rest, halternatives, rfl, hdiscards, hlisted, ?_⟩
  by_cases hnone : assessed.filterMap id = []
  · rw [if_pos (List.isEmpty_iff.mpr hnone)] at hend
    obtain ⟨_, _, _, hsay, hdone, rfl⟩ := Run.observe_bind_eq_ok_iff.mp hend
    obtain ⟨rfl, rfl⟩ := Run.observe_pure_eq_ok_iff.mp hdone
    obtain ⟨_, hwords, rfl⟩ := (Run.observe_say_eq_ok_iff (by rfl)).mp hsay
    obtain ⟨text, htext, hdropping⟩ := bind_eq_ok_iff.mp hwords
    obtain rfl := pure_eq_ok_iff.mp hdropping
    refine Or.inl ⟨?_, rfl, text, htext, rfl⟩
    have hforbidden := List.filter_eq_nil_iff.mp ((forall₂_nil_iff hcandidates).mpr hnone)
    simpa using hforbidden
  · have hsome : ¬(assessed.filterMap id).isEmpty = true := by
      simpa using hnone
    rw [if_neg hsome] at hend
    obtain ⟨rfl, reports, hreports, rfl⟩ := observe_narrowDown hend
    exact Or.inr ⟨_, reports, narrows_of_reports hcandidates hnone hlisted hreports, rfl⟩

/-- Nothing is told of an itinerary with a single ride. -/
theorem log_of_choose_single (hchanges : given.changes = []) {block : List Choice}
    (h : (optimizer.choose pricing given).observe (some .debug) = .ok (block, log)) :
    log = [] := by
  rw [choose, if_pos (List.isEmpty_iff.mpr hchanges)] at h
  obtain ⟨_, -, hdone⟩ := Run.observe_ofFaulty_bind_eq_ok_iff.mp h
  exact (Run.observe_pure_eq_ok_iff.mp hdone).2

/-! ## A batch -/

/-- What is told before the first itinerary: the safe transfer time, if waits
are weighed. -/
def Opens (optimizer : Optimizer) (xs : List Itinerary) (opening : List (Level × String)) : Prop :=
  if optimizer.settings.weighRisk = true ∧ xs ≠ [] then
    ∃ safe, SafeTransfer.ofBatch optimizer.slack.changing xs = .ok safe ∧
      opening = [(.debug, s!"Min safe transfer time: {safe.text}")]
  else opening = []

theorem opens_of_riskPricing {xs : List Itinerary} (hbatch : xs ≠ [])
    (h : (optimizer.riskPricing xs).observe (some .debug) = .ok (pricing, log)) :
    optimizer.Opens xs log := by
  unfold Opens
  rw [riskPricing] at h
  cases hweigh : optimizer.settings.weighRisk with
  | false =>
    simp only [hweigh] at h
    rw [if_neg (by simp)]
    exact (Run.observe_pure_eq_ok_iff.mp h).2
  | true =>
    simp only [hweigh] at h
    rw [if_pos ⟨rfl, hbatch⟩]
    obtain ⟨safe, hsafe, htell⟩ := Run.observe_ofExcept_bind_eq_ok_iff.mp h
    obtain ⟨_, _, _, hsay, hdone, rfl⟩ := Run.observe_bind_eq_ok_iff.mp htell
    obtain ⟨_, rfl⟩ := Run.observe_pure_eq_ok_iff.mp hdone
    obtain ⟨_, hwords, rfl⟩ := (Run.observe_say_eq_ok_iff (by rfl)).mp hsay
    obtain rfl := pure_eq_ok_iff.mp hwords
    exact ⟨safe, hsafe, rfl⟩

/-- The log of a batch that gets its choices.  After the opening there are the
logs of the itineraries, each with its block, in the order of the batch. -/
theorem exists_parts {xs : List Itinerary} {choices : List Choice}
    (h : (optimizer.optimize xs).observe (some .debug) = .ok (choices, log)) :
    ∃ pricing opening, (xs ≠ [] → (optimizer.riskPricing xs).outcome = .ok pricing) ∧
      optimizer.Opens xs opening ∧ ∃ parts : List (List Choice × List (Level × String)),
        List.Forall₂ (fun given part =>
          (optimizer.choose pricing given).observe (some .debug) = .ok part) xs parts ∧
            choices = (parts.map Prod.fst).flatten ∧
              log = opening ++ (parts.map Prod.snd).flatten := by
  rw [optimize] at h
  obtain ⟨_, -, hrun⟩ := Run.observe_ofExcept_bind_eq_ok_iff.mp h
  by_cases hbatch : xs = []
  · rw [if_pos (List.isEmpty_iff.mpr hbatch)] at hrun
    obtain ⟨rfl, rfl⟩ := Run.observe_pure_eq_ok_iff.mp hrun
    subst hbatch
    refine ⟨none, [], fun hne => absurd rfl hne, ?_, [], .nil, rfl, rfl⟩
    unfold Opens
    rw [if_neg (by simp)]
  · have hempty : ¬xs.isEmpty = true := by
      simpa using hbatch
    rw [if_neg hempty] at hrun
    obtain ⟨pricing, opening, _, hpricing, hchoose, rfl⟩ := Run.observe_bind_eq_ok_iff.mp hrun
    obtain ⟨blocks, _, _, hblocks, hdone, rfl⟩ := Run.observe_bind_eq_ok_iff.mp hchoose
    obtain ⟨rfl, rfl⟩ := Run.observe_pure_eq_ok_iff.mp hdone
    obtain ⟨parts, hparts, rfl, rfl⟩ := Run.observe_mapM_eq_ok_iff.mp hblocks
    refine ⟨pricing, opening, fun _ => (Run.observe_eq_ok_iff.mp hpricing).2,
      opens_of_riskPricing hbatch hpricing, parts, hparts, rfl, ?_⟩
    rw [List.append_nil]

/-- A batch that is refused is not told of. -/
theorem messages_of_refused {xs : List Itinerary} {e : Error}
    (h : (optimizer.optimize xs).observe (some .debug) = .error e)
    (hrefused : ∀ fault, e ≠ .fault fault) : (optimizer.optimize xs).messages = [] := by
  by_cases haudible : (optimizer.optimize xs).Audible (some .debug)
  · obtain ⟨texts, htexts⟩ := Run.observe_of_audible haudible
    rw [htexts] at h
    cases hrun : (optimizer.optimize xs).outcome with
    | ok choices =>
      rw [hrun] at h
      cases h
    | error refusal =>
      rw [hrun] at h
      obtain rfl : refusal = e := Except.error.inj h
      rcases error_of_outcome hrun with hcheck | ⟨fault, hfault⟩
      · rw [optimize, hcheck]
        rfl
      · exact absurd hfault (hrefused fault)
  · obtain ⟨-, -, fault, -, hfault⟩ := Run.observe_of_not_audible haudible
    rw [hfault] at h
    exact absurd (Except.error.inj h).symm (hrefused fault)

/-- Whoever listens at level `debug` is told the truth about the narrowing.  If
there are choices, the log has for every itinerary with several rides a report
on all its alternatives, and then one for each criterion, unless all are
forbidden.  The reports count what is left, down to the choices of this
itinerary.  A batch that is refused is not told of. -/
theorem log_tells_narrowing (optimizer : Optimizer) (xs : List Itinerary) :
    (∀ choices log, (optimizer.optimize xs).observe (some .debug) = .ok (choices, log) →
      ∃ pricing opening, (xs ≠ [] → (optimizer.riskPricing xs).outcome = .ok pricing) ∧
        optimizer.Opens xs opening ∧ ∃ parts : List (List Choice × List (Level × String)),
          choices = (parts.map Prod.fst).flatten ∧
            log = opening ++ (parts.map Prod.snd).flatten ∧
              List.Forall₂ (fun given part =>
                (optimizer.choose pricing given).outcome = .ok part.1 ∧
                  (given.changes = [] → part.2 = []) ∧
                    (given.changes ≠ [] → optimizer.Narrates pricing given part.1 part.2))
                xs parts) ∧
      ∀ e, (optimizer.optimize xs).observe (some .debug) = .error e →
        (∃ fault, e = .fault fault) ∨ (optimizer.optimize xs).messages = [] := by
  constructor
  · intro choices log h
    obtain ⟨pricing, opening, hpricing, hopens, parts, hparts, hchoices, hlog⟩ := exists_parts h
    refine ⟨pricing, opening, hpricing, hopens, parts, hchoices, hlog, ?_⟩
    refine hparts.imp fun given part hpart => ⟨?_, ?_, ?_⟩
    · exact (Run.observe_eq_ok_iff.mp hpart).2
    · intro hchanges
      exact log_of_choose_single hchanges hpart
    · intro hchanges
      exact narrates_of_choose hchanges hpart
  · intro e h
    by_cases hfault : ∃ fault, e = .fault fault
    · exact Or.inl hfault
    · exact Or.inr (messages_of_refused h (not_exists.mp hfault))

/-- Each of two journeys is told of in four reports.  What is left of the first one
changes elsewhere.  The second one is the best of its own alternatives, and all of
its reports keep it. -/
theorem log_tells_narrowing_journey :
    ∃ choices log, (network.optimize [Network.journey, Network.earlyWalk]).observe
        (some .debug) = .ok (choices, log) ∧
      choices.map (·.isUnchanged) = [false, true] ∧ log.length = 8 ∧
        ∃ parts : List (List Choice × List (Level × String)),
          choices = (parts.map Prod.fst).flatten ∧ log = (parts.map Prod.snd).flatten ∧
            List.Forall₂ (fun given part => network.Narrates none given part.1 part.2)
              [Network.journey, Network.earlyWalk] parts := by
  have hcounts : ((network.optimize [Network.journey, Network.earlyWalk]).observe
      (some .debug)).map (fun told => (told.1.map (·.isUnchanged), told.2.length)) =
        .ok ([false, true], 8) := by
    decide +kernel
  obtain ⟨⟨choices, log⟩, hrun, hcounts⟩ := map_eq_ok_iff.mp hcounts
  obtain ⟨hunchanged, hlength⟩ := Prod.mk.inj hcounts
  obtain ⟨pricing, opening, hpricing, hopens, parts, hchoices, hlog, hparts⟩ :=
    (log_tells_narrowing network [Network.journey, Network.earlyWalk]).1 choices log hrun
  have hsilent : network.settings.weighRisk = false := rfl
  obtain rfl : pricing = none := by
    have hnone := hpricing (List.cons_ne_nil _ _)
    rw [outcome_riskPricing_unweighed hsilent] at hnone
    exact (Except.ok.inj hnone).symm
  obtain rfl : opening = [] := by
    rwa [Opens, if_neg (by simp [hsilent])] at hopens
  have hchanges : ∀ given ∈ [Network.journey, Network.earlyWalk], given.changes ≠ [] := by
    decide +kernel
  exact ⟨choices, log, hrun, hunchanged, hlength, parts, hchoices, hlog,
    forall₂_imp_of_mem hparts fun given hgiven part hpart => hpart.2.2 (hchanges given hgiven)⟩

end Optimizer

end TransitTransfers
