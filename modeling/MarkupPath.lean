import MarkupPath.Text.ByteCursor
import MarkupPath.Query.Survey
import MarkupPath.Proofs.Nesting.Lineage
import MarkupPath.Proofs.Markup.Name
import MarkupPath.Proofs.Markup.ScanOrder
import MarkupPath.Proofs.Element.Enclosing
import MarkupPath.Proofs.Element.SiblingIndex
import MarkupPath.Proofs.Element.Segment
import MarkupPath.Proofs.XPath.Notation
import MarkupPath.Proofs.XPath.Reading
import MarkupPath.Proofs.XPath.Matching
import MarkupPath.Proofs.XPath.Tracking
import MarkupPath.Proofs.XPath.Search
import MarkupPath.Proofs.XPath.RoundTrip
import MarkupPath.Proofs.Markup.Reading
import MarkupPath.Proofs.Tree.Header
import MarkupPath.Proofs.Nesting.Balance
import MarkupPath.Proofs.Tree.Node
import MarkupPath.Proofs.Tree.Context
import MarkupPath.Proofs.Tree.Path
import MarkupPath.Proofs.Nesting.Address
import MarkupPath.Proofs.Nesting.Outline
import MarkupPath.Proofs.Element.Labels
import MarkupPath.Proofs.XPath.Location
import MarkupPath.Proofs.XPath.Unnamed
import MarkupPath.Proofs.XPath.FullPath
import MarkupPath.Proofs.XPath.Structure
import MarkupPath.Proofs.XPath.Naming
import MarkupPath.Proofs.Text.Bytes
import MarkupPath.Proofs.Markup.Grammar
import MarkupPath.Proofs.Markup.TagBytes
import MarkupPath.Proofs.Markup.Leftmost
import MarkupPath.Proofs.XPath.Appending
import MarkupPath.Proofs.Element.Cursor
import MarkupPath.Proofs.Query.Lines
import MarkupPath.Proofs.Element.SiblingCount
import MarkupPath.Proofs.Markup.Restart
import MarkupPath.Proofs.Markup.PairBytes
import MarkupPath.Proofs.Markup.Writing
import MarkupPath.Proofs.Query.Skipping
import MarkupPath.Proofs.XPath.Substitution
import MarkupPath.Proofs.XPath.Ancestors
import MarkupPath.Proofs.Text.WordTable
import MarkupPath.Proofs.Query.Positions
import MarkupPath.Proofs.Query.Entries
import MarkupPath.Proofs.Markup.TagSlices
import MarkupPath.Proofs.XPath.StepSlices
import MarkupPath.Proofs.XPath.Progress
