import StepMid.Framework.Loop
import StepMid.Framework.Lts
import StepMid.Smf.Progress
import StepMid.Smf.Extraction
import StepMid.Smf.Truncation
import StepMid.Smf.Chunks
import StepMid.Smf.ScanAll
import StepMid.Smf.RunningStatus
import StepMid.Smf.LengthFields
import StepMid.Smf.WriteDelta
import StepMid.Load.Metadata
import StepMid.Load.Failure
import StepMid.Load.Exact
import StepMid.Load.WideRuns
import StepMid.Load.ReadBack
import StepMid.Tls.Threads
import StepMid.Tls.Rounds
import StepMid.Smf.Skipped
import StepMid.Load.Footprint
import StepMid.Load.Contents
import StepMid.Load.Garbage
import StepMid.Plugin.References
import StepMid.Plugin.Records
import StepMid.Plugin.InProcess
import StepMid.Tls.Solo
import StepMid.Load.Outcome
import StepMid.Tls.Unload
import StepMid.Load.Builds
