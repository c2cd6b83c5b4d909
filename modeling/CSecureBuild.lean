import CSecureBuild.Shell.Equivalence
import CSecureBuild.Gate.Contract
import CSecureBuild.Harness.CostCap
import CSecureBuild.Harness.LineAlign
import CSecureBuild.Harness.Lexing
import CSecureBuild.Harness.Comments
import CSecureBuild.Harness.Literals
import CSecureBuild.Harness.Select
import CSecureBuild.Harness.Selection
import CSecureBuild.Harness.Renaming
import CSecureBuild.Harness.Linewise
import CSecureBuild.Harness.Reading
import CSecureBuild.Harness.Rescan
import CSecureBuild.Harness.Numbering
import CSecureBuild.Lib.Nesting
import CSecureBuild.Harness.Markers
import CSecureBuild.PyLib.Objects
import CSecureBuild.Harness.Triage
import CSecureBuild.Harness.Outage
import CSecureBuild.Lib.FirstCome
import CSecureBuild.Harness.Builder
import CSecureBuild.Harness.ReadingOrder
import CSecureBuild.PyLib.JsonSchema
import CSecureBuild.Harness.AnswerSchema
import CSecureBuild.PyLib.Languages
import CSecureBuild.Harness.JulietNames
import CSecureBuild.CLib.Numerals
import CSecureBuild.Shell.Recall
import CSecureBuild.Scripts.Cvss
import CSecureBuild.Harness.Functions
import CSecureBuild.Harness.FlaggedLine
import CSecureBuild.Harness.FreshNames
import CSecureBuild.Harness.Stats
import CSecureBuild.Harness.Chart
import CSecureBuild.Harness.LabelWords
import CSecureBuild.Harness.Cut
import CSecureBuild.Harness.Prompt
import CSecureBuild.Shell.Planted
import CSecureBuild.Lib.Rounding
import CSecureBuild.Scripts.Score
import CSecureBuild.Harness.Noninterference
import CSecureBuild.Harness.Segments
import CSecureBuild.Harness.Dataset
import CSecureBuild.Harness.Retry
import CSecureBuild.Harness.Training
import CSecureBuild.Harness.Rotation
