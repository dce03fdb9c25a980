import Ember.Main
import Ember.Node.Raw
import Ember.Proofs.Alone
import Ember.Proofs.Bindings
import Ember.Proofs.CallDepth
import Ember.Proofs.Comments
import Ember.Proofs.Confinement
import Ember.Proofs.Conversation
import Ember.Proofs.Diagnosis
import Ember.Proofs.Display
import Ember.Proofs.Division
import Ember.Proofs.Encapsulation
import Ember.Proofs.Equality
import Ember.Proofs.Export
import Ember.Proofs.Folding
import Ember.Proofs.Lineage
import Ember.Proofs.Literals
import Ember.Proofs.OpenBrackets
import Ember.Proofs.Picture
import Ember.Proofs.Replay
import Ember.Proofs.RoundTrip
import Ember.Proofs.Safety
import Ember.Proofs.Scoping
import Ember.Proofs.Spans
import Ember.Proofs.Surroundings
import Ember.Proofs.Tracing
import Ember.Proofs.Unreached
import Ember.Proofs.Validity
import Ember.Proofs.Visibility
import Ember.Proofs.Wrapping
import Ember.Store.Export
