import Pick.BulkSensorProofs
import Pick.ClientConnectionProofs
import Pick.ClockProofs
import Pick.DispatchCutProofs
import Pick.EncodefProofs
import Pick.EndstopProofs
import Pick.GcodeStateProofs
import Pick.ItersolveRunProofs
import Pick.LoadCellProofs
import Pick.MoveConservedProofs
import Pick.NeopixelProofs
import Pick.PacketProofs
import Pick.PastPositionProofs
import Pick.PipelineProofs
import Pick.PnpParkProofs
import Pick.PnpTargetProofs
import Pick.PnpToolChangeProofs
import Pick.PnpVisionProofs
import Pick.PnpWebProofs
import Pick.PollreactorProofs
import Pick.PressurePumpProofs
import Pick.PressureValveProofs
import Pick.ReceiveWindowProofs
import Pick.ResyncProofs
import Pick.SchedRunProofs
import Pick.StepFlushProofs
import Pick.StepPathsProofs
import Pick.StepPositionProofs
import Pick.SteppersyncProofs
import Pick.ToolheadRunProofs
import Pick.ValveConfigProofs
