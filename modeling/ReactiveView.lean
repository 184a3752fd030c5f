import ReactiveView.Session.Basic
import ReactiveView.Proofs.Run
import ReactiveView.Proofs.Store.Reading
import ReactiveView.Proofs.Store.Overwriting
import ReactiveView.Proofs.Reaction.Writing
import ReactiveView.Proofs.Reaction.Mirroring
import ReactiveView.Proofs.Value.Equality
import ReactiveView.Proofs.Reaction.Pending
import ReactiveView.Proofs.Reaction.Pass
import ReactiveView.Proofs.Reaction.Currency
import ReactiveView.Proofs.Document.Tree
import ReactiveView.Proofs.Document.Dropping
import ReactiveView.Proofs.Document.Moving
import ReactiveView.Proofs.Document.Move
import ReactiveView.Proofs.Document.Operation
import ReactiveView.Proofs.Document.Reuse
import ReactiveView.Proofs.Number.Exact
import ReactiveView.Proofs.Value.Display
import ReactiveView.Proofs.Store.Exactness
import ReactiveView.Proofs.Document.Renewal
import ReactiveView.Proofs.View.Rendering
import ReactiveView.Proofs.View.Bindings
import ReactiveView.Proofs.View.Effects
import ReactiveView.Proofs.View.Passes
import ReactiveView.Proofs.View.Turns
import ReactiveView.Proofs.Document.Region
import ReactiveView.Proofs.View.Site
import ReactiveView.Proofs.View.Walk
import ReactiveView.Proofs.View.Attaching
import ReactiveView.Proofs.View.Descent
import ReactiveView.Proofs.Document.Rehanging
import ReactiveView.Proofs.View.Mounting
import ReactiveView.Proofs.View.Upholding
import ReactiveView.Proofs.View.Currency
import ReactiveView.Proofs.View.Labels
import ReactiveView.Proofs.Value.Fields
import ReactiveView.Proofs.Value.Place
import ReactiveView.Proofs.Store.Tree
import ReactiveView.Proofs.Store.Snapshot
import ReactiveView.Proofs.Store.Assigning
import ReactiveView.Proofs.Reaction.Assigning
import ReactiveView.Proofs.Reaction.Transparency
import ReactiveView.Proofs.Reaction.ReadBack
import ReactiveView.Proofs.Reaction.Detached
import ReactiveView.Proofs.Number.Rounding
import ReactiveView.Proofs.Markup.Entity
import ReactiveView.Proofs.Markup.Shape
import ReactiveView.Proofs.Markup.Scanning
import ReactiveView.Proofs.Markup.RoundTrip
import ReactiveView.Proofs.Markup.Parsed
import ReactiveView.Proofs.Document.Showing
import ReactiveView.Proofs.Document.Grafting
import ReactiveView.Proofs.Document.Parsing
import ReactiveView.Proofs.Document.Replacing
import ReactiveView.Proofs.Document.Listing
import ReactiveView.Proofs.Document.Occupancy
import ReactiveView.Proofs.Document.Rewriting
import ReactiveView.Proofs.Reaction.History
import ReactiveView.Proofs.Store.Arising
import ReactiveView.Proofs.Reaction.Computing
import ReactiveView.Proofs.Reaction.Capture
import ReactiveView.Proofs.Reaction.Idling
import ReactiveView.Proofs.Reaction.FanOut
import ReactiveView.Proofs.Value.Apart
import ReactiveView.Proofs.Reaction.Apart
import ReactiveView.Proofs.Reaction.Halting
import ReactiveView.Proofs.Reaction.Sources
import ReactiveView.Proofs.Reaction.Following
import ReactiveView.Proofs.Document.Confinement
import ReactiveView.Proofs.Store.Listing
import ReactiveView.Proofs.View.Intact
import ReactiveView.Proofs.View.Drawing
import ReactiveView.Proofs.View.Serving
import ReactiveView.Proofs.View.Building
import ReactiveView.Proofs.View.Locality
import ReactiveView.Proofs.Document.Flags
import ReactiveView.Proofs.Session.Passage
import ReactiveView.Proofs.Session.Commands
import ReactiveView.Proofs.Session.Privacy
import ReactiveView.Proofs.Session.Dormancy
import ReactiveView.Proofs.View.Redrawing
import ReactiveView.Proofs.View.Scoped
import ReactiveView.Proofs.View.Sealing
import ReactiveView.Proofs.Document.Draining
import ReactiveView.Proofs.View.Sparing
import ReactiveView.Proofs.View.Detaching
import ReactiveView.Proofs.Document.Walking
import ReactiveView.Proofs.View.Tour
import ReactiveView.Proofs.View.Enumeration
import ReactiveView.Proofs.Text.Runs
import ReactiveView.Proofs.Template.Segments
import ReactiveView.Proofs.Store.Evolution
import ReactiveView.Proofs.Reaction.Representation
import ReactiveView.Proofs.Document.Containment
import ReactiveView.Proofs.Document.Resetting
import ReactiveView.Proofs.Number.Bits
import ReactiveView.Proofs.Value.Equivalence
import ReactiveView.Proofs.Document.Appending
import ReactiveView.Proofs.Document.TextContent
import ReactiveView.Proofs.Session.Registering
import ReactiveView.Proofs.Text.Words
import ReactiveView.Proofs.Document.Querying
import ReactiveView.Proofs.Value.Members
import ReactiveView.Proofs.Store.Numbering
import ReactiveView.Proofs.Document.Intake
