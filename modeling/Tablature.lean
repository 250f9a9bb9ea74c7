import Tablature.Directive.Encode
import Tablature.Interface
import Tablature.Session.Event
import Tablature.Proofs.Steps
import Tablature.Proofs.Operations
import Tablature.Proofs.Facing
import Tablature.Proofs.History
import Tablature.Proofs.Links
import Tablature.Proofs.Accidentals
import Tablature.Proofs.Display
import Tablature.Proofs.Played
import Tablature.Proofs.Lasting
import Tablature.Proofs.Respelling
import Tablature.Proofs.BendOrder
import Tablature.Proofs.Selecting
import Tablature.Proofs.Rendering
import Tablature.Proofs.Hidden
import Tablature.Proofs.Growing
import Tablature.Proofs.ChordTags
import Tablature.Proofs.Tuplets
import Tablature.Proofs.Rearranging
import Tablature.Proofs.RoundTrip
import Tablature.Proofs.Measures
import Tablature.Proofs.Positions
import Tablature.Proofs.Fitting
import Tablature.Proofs.Scripts
import Tablature.Proofs.Courtesies
import Tablature.Proofs.ChordNotes
import Tablature.Proofs.AllOrNothing
import Tablature.Proofs.Sounding
import Tablature.Proofs.TickRange
import Tablature.Proofs.Annotating
import Tablature.Proofs.Fingerings
import Tablature.Proofs.TextVoices
import Tablature.Proofs.Finishing
import Tablature.Proofs.Placements
import Tablature.Proofs.Shares
import Tablature.Proofs.Options
import Tablature.Proofs.Palette
import Tablature.Proofs.Tags
import Tablature.Proofs.Documents
import Tablature.Proofs.Writing
import Tablature.Proofs.Handover
import Tablature.Proofs.Printed
import Tablature.Proofs.DurationCodes
import Tablature.Proofs.StaffSteps
