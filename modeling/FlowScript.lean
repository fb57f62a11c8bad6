import FlowScript.Document.Encode
import FlowScript.Compile
import FlowScript.Proofs.Order
import FlowScript.Proofs.Drafts
import FlowScript.Proofs.Reach
import FlowScript.Proofs.Budget
import FlowScript.Proofs.Body
import FlowScript.Proofs.Regions
import FlowScript.Proofs.Steps
import FlowScript.Proofs.Rendering
import FlowScript.Proofs.Sources
import FlowScript.Proofs.Turns
import FlowScript.Proofs.Reading
import FlowScript.Proofs.Closure
import FlowScript.Proofs.Arms
import FlowScript.Proofs.Control
import FlowScript.Proofs.Joins
import FlowScript.Proofs.Headers
import FlowScript.Proofs.Continuation
import FlowScript.Proofs.Sequence
import FlowScript.Proofs.Places
import FlowScript.Proofs.Enclosure
import FlowScript.Proofs.Visits
import FlowScript.Proofs.TypeReports
import FlowScript.Proofs.Colons
import FlowScript.Proofs.Layout
import FlowScript.Proofs.Nesting
import FlowScript.Proofs.Listings
import FlowScript.Proofs.Bodies
import FlowScript.Proofs.Exits
import FlowScript.Proofs.Detours
import FlowScript.Proofs.Lookups
import FlowScript.Proofs.Contributions
import FlowScript.Proofs.EdgeOrder
import FlowScript.Proofs.Parts
import FlowScript.Proofs.Frame
import FlowScript.Proofs.Apart
import FlowScript.Proofs.Typesetting
import FlowScript.Proofs.Relabelling
import FlowScript.Proofs.Faults
import FlowScript.Proofs.RoundTrip
import FlowScript.Proofs.Lexing
import FlowScript.Proofs.Partition
import FlowScript.Proofs.Decoding
import FlowScript.Proofs.Discovery
import FlowScript.Proofs.LoopNames
import FlowScript.Proofs.Neighbours
import FlowScript.Proofs.Registration
import FlowScript.Proofs.Building
import FlowScript.Proofs.Searches
