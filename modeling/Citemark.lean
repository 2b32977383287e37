import Citemark.Main
import Citemark.Proofs.Occurrence
import Citemark.Proofs.Numbering
import Citemark.Proofs.Rendering
import Citemark.Proofs.Passage
import Citemark.Proofs.Remnant
import Citemark.Proofs.Validity
import Citemark.Proofs.Idempotence
import Citemark.Proofs.Extension
import Citemark.Proofs.Diagnosis
import Citemark.Proofs.FixedPoint
import Citemark.Proofs.Atomicity
import Citemark.Proofs.Preview
import Citemark.Proofs.Location
import Citemark.Proofs.Layers
import Citemark.Proofs.Alternation
import Citemark.Proofs.RoundTrip
import Citemark.Proofs.Checked
import Citemark.Proofs.Offence
import Citemark.Proofs.Address
import Citemark.Proofs.Access
import Citemark.Proofs.Notes
import Citemark.Proofs.LogLines
import Citemark.Proofs.Columns
