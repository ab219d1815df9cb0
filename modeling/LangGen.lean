import LangGen.Backend.ChatModel
import LangGen.Backend.Prompt
import LangGen.Backend.TextService
import LangGen.Catalog.Encoding
import LangGen.Catalog.Indexed
import LangGen.Catalog.Reading
import LangGen.Files.Gather
import LangGen.Localization.Files
import LangGen.Report
import LangGen.Proofs.Catalog.Reading
import LangGen.Proofs.Catalog.Grouping
import LangGen.Proofs.Condition.Checker
import LangGen.Proofs.Catalog.Distinct
import LangGen.Proofs.Text.Name
import LangGen.Proofs.Line.Piece
import LangGen.Proofs.Catalog.Clean
import LangGen.Proofs.Catalog.Merge
import LangGen.Proofs.Catalog.InPlace
import LangGen.Proofs.Catalog.Admission
import LangGen.Proofs.Catalog.Joining
import LangGen.Proofs.Catalog.Sighting
import LangGen.Proofs.Condition.Blanks
import LangGen.Proofs.Condition.Braces
import LangGen.Proofs.Catalog.Place
import LangGen.Proofs.Catalog.Indexed
import LangGen.Proofs.Text.Lines
import LangGen.Proofs.Line.Reference
import LangGen.Proofs.Localization.Site
import LangGen.Proofs.Localization.Shape
import LangGen.Proofs.Catalog.Alike
import LangGen.Proofs.Chunk
import LangGen.Proofs.Localization.Meaning
import LangGen.Proofs.Files.BreadthFirst
import LangGen.Proofs.Files.Locate
import LangGen.Proofs.Files.Visit
import LangGen.Proofs.Files.Gather
import LangGen.Proofs.Catalog.Encoding
import LangGen.Proofs.Catalog.Items
import LangGen.Proofs.Catalog.Vacancy
import LangGen.Proofs.Files.Growth
import LangGen.Proofs.Files.Name
import LangGen.Proofs.Localization.Files
import LangGen.Proofs.Chunk.Partition
import LangGen.Proofs.Catalog.Seam
import LangGen.Proofs.Variation
import LangGen.Proofs.Condition.Spacing
import LangGen.Proofs.Catalog.Opening
import LangGen.Proofs.Catalog.Declaration
import LangGen.Proofs.Catalog.Origin
import LangGen.Proofs.Line.Interpolation
import LangGen.Proofs.Line.Link
import LangGen.Proofs.Catalog.Progress
import LangGen.Proofs.Catalog.WrittenBack
import LangGen.Proofs.Catalog.Strictness
import LangGen.Proofs.Catalog.Extension
import LangGen.Proofs.Catalog.Location
import LangGen.Proofs.Catalog.Repetition
import LangGen.Proofs.Localization.Requests
import LangGen.Proofs.Localization.Turns
import LangGen.Proofs.Localization.LineEnds
import LangGen.Proofs.Text.Split
import LangGen.Proofs.Catalog.Definition
import LangGen.Proofs.Catalog.Content
import LangGen.Proofs.Text.WellFormed
import LangGen.Proofs.Files.Source
import LangGen.Proofs.Files.Order
import LangGen.Proofs.Backend.TextService
import LangGen.Proofs.Backend.Prompt
import LangGen.Proofs.Report
import LangGen.Proofs.Condition.Descent
import LangGen.Proofs.Catalog.Stepwise
