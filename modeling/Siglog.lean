import Siglog.Merkle.BundleFormat
import Siglog.Merkle.MissingTile
import Siglog.Merkle.SubtreeHash
import Siglog.Sequencer.Runs
import Siglog.Checkpoint.Renderers
import Siglog.Storage.Dedup
import Siglog.Witness.Safety
import Siglog.Witness.Received
import Siglog.Witness.Messages
import Siglog.Worker.WitnessRuns
import Siglog.Worker.Immutable
import Siglog.Worker.Hints
import Siglog.Worker.Quorum
import Siglog.Worker.ObjectWidths
import Siglog.Monitor.Guarantee
import Siglog.Monitor.Digests
import Siglog.Api.Submit
import Siglog.Api.ParsePath
import Siglog.Api.Rekor
import Siglog.Vindex.Responses
import Siglog.Vindex.Path
import Siglog.Vindex.Packed
import Siglog.Vindex.CrashRuns
import Siglog.Vindex.Retries
import Siglog.Import.Resume
import Siglog.Import.Jsonl
import Siglog.Api.Handlers
import Siglog.Api.Remote
import Siglog.Checkpoint.Keys
import Siglog.Conda.Export
import Siglog.Conda.Verify
import Siglog.Conda.VerifyServed
import Siglog.Import.Continued
import Siglog.Monitor.Served
import Siglog.Monitor.Startup
import Siglog.Sequencer.Deployment
import Siglog.Worker.Startup
