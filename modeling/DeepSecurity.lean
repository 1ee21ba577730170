import DeepSecurity.Killerfinder.Proofs.PacketHandlerProofs
import DeepSecurity.CaptureHpc.Proofs.BlockAllocatorProofs
import DeepSecurity.CaptureHpc.Proofs.ConnectionManagerProofs
import DeepSecurity.CaptureHpc.Proofs.EventControllerProofs
import DeepSecurity.CaptureHpc.Proofs.RegistryMonitorProofs
import DeepSecurity.CaptureHpc.Proofs.ServerReceiveProofs
import DeepSecurity.CaptureHpc.Proofs.TaskManagerProofs
import DeepSecurity.CaptureHpc.Proofs.WebServiceProofs
import DeepSecurity.Cloudserver.Proofs.IsolationProofs
import DeepSecurity.Killerfinder.Proofs.BlockProofs
import DeepSecurity.Killerfinder.Proofs.PoolProofs
import DeepSecurity.Killerfinder.Proofs.RangeProofs
import DeepSecurity.Killerfinder.Proofs.RequestTargetProofs
import DeepSecurity.Killerfinder.Proofs.DecoderProofs
import DeepSecurity.Cloudagent.Proofs.FilterFileProofs
import DeepSecurity.Cloudserver.Proofs.JobQueueProofs
import DeepSecurity.Killerfinder.Proofs.ReputationProofs
import DeepSecurity.Killerfinder.Proofs.SaveToFileProofs
import DeepSecurity.Killerfinder.Proofs.SessionIdProofs
import DeepSecurity.Killerfinder.Proofs.SmtpProofs
import DeepSecurity.CaptureHpc.Proofs.UrlProofs
import DeepSecurity.CaptureHpc.Proofs.TaskQueueFileProofs
import DeepSecurity.CaptureHpc.Proofs.TaskRunnerProofs
import DeepSecurity.CaptureHpc.Proofs.ServerSendProofs
import DeepSecurity.CaptureHpc.Proofs.FileUploaderProofs
import DeepSecurity.CaptureHpc.Proofs.WebServiceUploadProofs
import DeepSecurity.Cloudserver.Proofs.LogServerProofs
import DeepSecurity.Cloudserver.Proofs.PolicyProofs
import DeepSecurity.Netmonitor.Proofs.LogfileProofs
import DeepSecurity.CaptureHpc.Proofs.Base64RoundTripProofs
import DeepSecurity.CaptureHpc.Proofs.ExclusionProofs
import DeepSecurity.CaptureHpc.Proofs.MonitorProofs
import DeepSecurity.CaptureHpc.Proofs.ProcessManagerProofs
import DeepSecurity.CaptureHpc.Proofs.TdiIrpHandlersProofs
import DeepSecurity.CaptureHpc.HttpMessages
import DeepSecurity.CaptureHpc.Proofs.HttpHeaderProofs
import DeepSecurity.CaptureHpc.Proofs.HttpMethodProofs
import DeepSecurity.CaptureHpc.Proofs.HttpRoundTripProofs
import DeepSecurity.CaptureHpc.Proofs.VisitGroupProgressProofs
