import FractalShader.Binary.Basic
import FractalShader.Binary.Rounding
import FractalShader.Binary.Shortest
import FractalShader.Binding
import FractalShader.Catalog.BuiltIn
import FractalShader.Catalog.Input
import FractalShader.Catalog.Kind
import FractalShader.Catalog.Template
import FractalShader.Decimal.Layout
import FractalShader.Decimal.Numeral
import FractalShader.Decimal.Reading
import FractalShader.Dict
import FractalShader.Exchange.Form
import FractalShader.Exchange.Messages
import FractalShader.Exchange.Model
import FractalShader.Failure
import FractalShader.Graph.Arrow
import FractalShader.Graph.Basic
import FractalShader.Graph.Editing
import FractalShader.Graph.Supply
import FractalShader.Hex
import FractalShader.Json.Basic
import FractalShader.Json.Syntax
import FractalShader.Json.Token
import FractalShader.Pipeline.Basic
import FractalShader.Pipeline.Comparison
import FractalShader.Pipeline.OfGraph
import FractalShader.Pipeline.Order
import FractalShader.Pipeline.ToGraph
import FractalShader.Proofs.Answers
import FractalShader.Proofs.Binary.ReadBack
import FractalShader.Proofs.Binary.Rounding
import FractalShader.Proofs.Binary.Shortest
import FractalShader.Proofs.Catalog.Limits
import FractalShader.Proofs.Decimal.Fences
import FractalShader.Proofs.Decimal.Numeral
import FractalShader.Proofs.Decimal.Reading
import FractalShader.Proofs.Decimal.Scaling
import FractalShader.Proofs.Exchange.Edits
import FractalShader.Proofs.Exchange.Form
import FractalShader.Proofs.Exchange.Model
import FractalShader.Proofs.Exchange.Records
import FractalShader.Proofs.Graph.Closing
import FractalShader.Proofs.Graph.Cycles
import FractalShader.Proofs.Graph.Detection
import FractalShader.Proofs.Graph.Effects
import FractalShader.Proofs.Graph.Joining
import FractalShader.Proofs.Graph.Legal
import FractalShader.Proofs.Graph.Names
import FractalShader.Proofs.Graph.Plan
import FractalShader.Proofs.Graph.Reachable
import FractalShader.Proofs.Graph.Stored
import FractalShader.Proofs.Json.Syntax
import FractalShader.Proofs.Json.Token
import FractalShader.Proofs.Pipeline.Forward
import FractalShader.Proofs.Pipeline.History
import FractalShader.Proofs.Pipeline.Legality
import FractalShader.Proofs.Pipeline.Normalized
import FractalShader.Proofs.Pipeline.OfGraph
import FractalShader.Proofs.Pipeline.Order
import FractalShader.Proofs.Pipeline.Rebuilt
import FractalShader.Proofs.Pipeline.Sources
import FractalShader.Proofs.Pipeline.Tally
import FractalShader.Proofs.Pipeline.Waiting
import FractalShader.Proofs.Queue.Rounds
import FractalShader.Proofs.Queue.Sharing
import FractalShader.Proofs.Session.Cycles
import FractalShader.Proofs.Session.InPlace
import FractalShader.Proofs.Session.Inlined
import FractalShader.Proofs.Session.Ordered
import FractalShader.Proofs.Session.Parameters
import FractalShader.Proofs.Session.Rejections
import FractalShader.Proofs.Session.Reload
import FractalShader.Proofs.Session.Renderer
import FractalShader.Proofs.Session.Saved
import FractalShader.Proofs.Session.Settling
import FractalShader.Proofs.Session.Visible
import FractalShader.Proofs.Shader.Assembly
import FractalShader.Proofs.Shader.Confinement
import FractalShader.Proofs.Shader.Declared
import FractalShader.Proofs.Shader.Equivalence
import FractalShader.Proofs.Shader.Layout
import FractalShader.Proofs.Shader.Lines
import FractalShader.Proofs.Shader.Marks
import FractalShader.Proofs.Shader.Passages
import FractalShader.Proofs.Shader.Recovery
import FractalShader.Proofs.Shader.References
import FractalShader.Proofs.Shader.Release
import FractalShader.Proofs.Shader.Renaming
import FractalShader.Proofs.Shader.Scopes
import FractalShader.Proofs.Shader.Signs
import FractalShader.Proofs.Shader.Structure
import FractalShader.Proofs.Shader.Tokens
import FractalShader.Proofs.Shader.Values
import FractalShader.Proofs.Shader.Wiring
import FractalShader.Queue
import FractalShader.Session.Archive
import FractalShader.Session.Basic
import FractalShader.Settings
import FractalShader.Shader.Fragment
import FractalShader.Shader.Lines
import FractalShader.Shader.Program
import FractalShader.Shader.Sha256
