import Haml.Session
import Haml.Node.Graph
import Haml.Template.Preprocess
import Haml.Template.Loader
import Haml.Package
import Haml.Watch.Run
import Haml.Main
import Haml.Proofs.Graph.Growth
import Haml.Proofs.Compile.Termination
import Haml.Proofs.Markup.Nesting
import Haml.Proofs.Session.Sharing
import Haml.Proofs.Reading.Positions
import Haml.Proofs.Reading.Writings
import Haml.Proofs.Compile.Comments
import Haml.Proofs.Compile.Failures
import Haml.Proofs.Compile.Filters
import Haml.Proofs.Markup.Shown
import Haml.Proofs.Watch.Compilers
import Haml.Proofs.Watch.Files
import Haml.Proofs.Watch.Visits
import Haml.Proofs.Watch.Walk
import Haml.Proofs.Watch.Freshness
import Haml.Proofs.Forest.Likeness
import Haml.Proofs.Compile.Reindentation
import Haml.Proofs.Text.LineEnds
import Haml.Proofs.Text.Returned
import Haml.Proofs.Reading.Twins
import Haml.Proofs.Reading.Refusals
import Haml.Proofs.Reading.LineEnds
import Haml.Proofs.Compile.LineEnds
import Haml.Proofs.Markup.Spacing
import Haml.Proofs.Graph.Flags
import Haml.Proofs.Compile.PlainText
import Haml.Proofs.Reading.Spellings
import Haml.Proofs.Escape.Delimiters
import Haml.Proofs.Text.OpenVariables
import Haml.Proofs.Compile.Spellings
import Haml.Proofs.Markup.Attributes
import Haml.Proofs.Markup.TemplateCode
import Haml.Proofs.Text.Segments
import Haml.Proofs.Compile.BlockText
import Haml.Proofs.Compile.FilterBodies
import Haml.Proofs.Escape.Wrapper
import Haml.Proofs.Reading.Quotations
import Haml.Proofs.Reading.Queries
import Haml.Proofs.Reading.Singles
import Haml.Proofs.Reading.Breaks
import Haml.Proofs.Compile.ClosingTags
