import EffectCalculus.Bindings.History
import EffectCalculus.Counter
import EffectCalculus.Effect.Depth
import EffectCalculus.Eval.Depth
import EffectCalculus.Script.Chain
import EffectCalculus.Settings
import EffectCalculus.Term.Avoiding
import EffectCalculus.Proofs.Term.Nameless
import EffectCalculus.Proofs.Term.Avoiding
import EffectCalculus.Proofs.Eval.Log
import EffectCalculus.Proofs.Eval.Watching
import EffectCalculus.Proofs.Eval.Failure
import EffectCalculus.Proofs.Eval.Call
import EffectCalculus.Proofs.Eval.Block
import EffectCalculus.Proofs.Eval.BlockProcess
import EffectCalculus.Proofs.Eval.ReaderProcess
import EffectCalculus.Proofs.Term.Fill
import EffectCalculus.Proofs.Term.Position
import EffectCalculus.Proofs.Eval.Closure
import EffectCalculus.Proofs.Run.Unbounded
import EffectCalculus.Proofs.Effect.Task
import EffectCalculus.Proofs.Script.Steady
import EffectCalculus.Proofs.Effect.Direct
import EffectCalculus.Proofs.Effect.Stack
import EffectCalculus.Proofs.Effect.Laws
import EffectCalculus.Proofs.Effect.Block
import EffectCalculus.Proofs.Eval.Beta
import EffectCalculus.Proofs.Term.Alpha
import EffectCalculus.Proofs.Text.Boundary
import EffectCalculus.Proofs.Term.Show
import EffectCalculus.Proofs.Value.Order
import EffectCalculus.Proofs.Value.Show
import EffectCalculus.Proofs.Eval.Renaming
import EffectCalculus.Proofs.Eval.Relevance
import EffectCalculus.Proofs.Value.Position
import EffectCalculus.Proofs.Eval.Position
import EffectCalculus.Proofs.Eval.Observation
import EffectCalculus.Proofs.Effect.Bounded
import EffectCalculus.Proofs.Effect.Sequence
import EffectCalculus.Proofs.Effect.Approximation
import EffectCalculus.Proofs.Effect.Compose
import EffectCalculus.Proofs.Effect.Typed
import EffectCalculus.Proofs.Eval.Success
import EffectCalculus.Proofs.Eval.Capture
import EffectCalculus.Proofs.Effect.Deferred
import EffectCalculus.Proofs.Effect.Plan
import EffectCalculus.Proofs.Effect.Dialect
import EffectCalculus.Proofs.Eval.Scope
import EffectCalculus.Proofs.Eval.Hygiene
import EffectCalculus.Proofs.Effect.Lift
import EffectCalculus.Proofs.Effect.Guard
import EffectCalculus.Proofs.Term.Place
import EffectCalculus.Proofs.Term.Capture
import EffectCalculus.Proofs.Term.Reader
import EffectCalculus.Proofs.Term.ReaderProgram
import EffectCalculus.Proofs.Term.Provenance
import EffectCalculus.Proofs.Eval.Origin
import EffectCalculus.Proofs.Term.Commute
import EffectCalculus.Proofs.Term.Extent
import EffectCalculus.Proofs.Effect.Consistency
import EffectCalculus.Proofs.Effect.Counting
import EffectCalculus.Proofs.Term.Reach
import EffectCalculus.Proofs.Value.Map
