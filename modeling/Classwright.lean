import Classwright.Instruction.Listing
import Classwright.Proofs.MaxStack
import Classwright.Proofs.Refinement
import Classwright.Proofs.Verification
import Classwright.Proofs.Liveness
import Classwright.Proofs.Resolution
import Classwright.Proofs.BodyCodec
import Classwright.Proofs.Constructors
import Classwright.Proofs.Counts
import Classwright.Proofs.Decoding
import Classwright.Proofs.MeetOverPaths
import Classwright.Proofs.StaticFields
import Classwright.Proofs.FramePlaces
import Classwright.Proofs.StackNeutrality
import Classwright.Proofs.Descriptors
import Classwright.Proofs.Heap
import Classwright.Proofs.LiteralValues
import Classwright.Proofs.LocalAccesses
import Classwright.Proofs.LocalSlots
import Classwright.Proofs.AnnotationContents
import Classwright.Proofs.TextBytes
import Classwright.Proofs.Assignability
import Classwright.Proofs.InterfaceCalls
import Classwright.Proofs.FrameSlots
