import CapnpcWasm.Wasm.Syntax
import CapnpcWasm.Lib.Run
import CapnpcWasm.Wasm.Machine
import CapnpcWasm.Rewriter.Frames
import CapnpcWasm.Rewriter.Calls
import CapnpcWasm.Rewriter.Instantiation
import CapnpcWasm.Rewriter.Meaning
import CapnpcWasm.Rewriter.Countdown
import CapnpcWasm.Rewriter.Unchecked
import CapnpcWasm.Rewriter.Stop
import CapnpcWasm.MemoryFs.Failure
import CapnpcWasm.MemoryFs.ReadOnly
import CapnpcWasm.MemoryFs.Bytes
import CapnpcWasm.GoSdk.Publication
import CapnpcWasm.GoSdk.Reports
import CapnpcWasm.Sdk.Parity
import CapnpcWasm.Sdk.Results
import CapnpcWasm.TsSdk.RoundTrip
import CapnpcWasm.TsSdk.Stops
import CapnpcWasm.TsSdk.Agreement
import CapnpcWasm.Launcher.RolesKept
import CapnpcWasm.Launcher.Publishing
import CapnpcWasm.Launcher.Releases
import CapnpcWasm.Launcher.Normalizing
import CapnpcWasm.GoSdk.GuestPaths
import CapnpcWasm.MemoryFs.Listing
import CapnpcWasm.GoSdk.Mounts
import CapnpcWasm.Sdk.Inverse
import CapnpcWasm.TsSdk.Graphs
import CapnpcWasm.TsSdk.Vectors
import CapnpcWasm.Binary.Framing
import CapnpcWasm.Binary.Accepted
import CapnpcWasm.Worker.Ends
