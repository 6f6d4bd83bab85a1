import ApiSchema.Marker
import ApiSchema.Proofs.Accesses
import ApiSchema.Proofs.Adjacent
import ApiSchema.Proofs.BuiltShapes
import ApiSchema.Proofs.Confirmations
import ApiSchema.Proofs.ExampleKinds
import ApiSchema.Proofs.ExampleLengths
import ApiSchema.Proofs.Expansion
import ApiSchema.Proofs.FieldMarks
import ApiSchema.Proofs.FlatExamples
import ApiSchema.Proofs.Guarded
import ApiSchema.Proofs.Inhabitants
import ApiSchema.Proofs.Location
import ApiSchema.Proofs.Midpoints
import ApiSchema.Proofs.Outcomes
import ApiSchema.Proofs.PathOrder
import ApiSchema.Proofs.Preorder
import ApiSchema.Proofs.Priority
import ApiSchema.Proofs.Recall
import ApiSchema.Proofs.Renaming
import ApiSchema.Proofs.Rendering
import ApiSchema.Proofs.RuleNumbers
import ApiSchema.Proofs.Traces
import ApiSchema.Proofs.TypeText
import ApiSchema.Proofs.Walks
import ApiSchema.Settings.Read
