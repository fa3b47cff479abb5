import CertiCore.Mm.Proofs.PmmProofs
import CertiCore.Mm.Proofs.HistoryProofs
import CertiCore.Mm.Proofs.CheckProofs
import CertiCore.Mm.Proofs.MmuProofs
import CertiCore.Mm.Proofs.ClientsProofs
import CertiCore.Init.Proofs.EntryProofs
import CertiCore.Libs.Proofs.BitmapProofs
import CertiCore.Libs.Proofs.MemmoveProofs
import CertiCore.Libs.Proofs.CompareProofs
import CertiCore.Libs.Proofs.StrtolProofs
import CertiCore.Libs.Proofs.OverreadProofs
import CertiCore.Libs.Proofs.LookupProofs
import CertiCore.Debug.Proofs.KmonitorProofs
import CertiCore.Debug.Proofs.MonitorProofs
import CertiCore.Debug.Proofs.PanicProofs
import CertiCore.Debug.Proofs.TranscriptProofs
import CertiCore.Trap.Proofs.TrapProofs
import CertiCore.Trap.Proofs.TrapentryProofs
import CertiCore.Trap.Proofs.DumpProofs
import CertiCore.Verif.Proofs.LlvmProofs
import CertiCore.Verif.Proofs.LlvmNiProofs
import CertiCore.Ni.Proofs.SfscqProofs
import CertiCore.Libs.Proofs.StrcpyProofs
import CertiCore.Libs.Proofs.ListProofs
import CertiCore.Init.Proofs.InitProofs
import CertiCore.Init.Proofs.OutcomeProofs
import CertiCore.Verif.Proofs.NrFreeProofs
import CertiCore.Verif.Proofs.RiscvProofs
