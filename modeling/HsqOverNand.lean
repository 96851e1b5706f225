import HsqOverNand.Lib.Lookahead
import HsqOverNand.Server.Cpu
import HsqOverNand.Server.Proof.Lane
import HsqOverNand.Server.Proof.Schedule
import HsqOverNand.Server.Proof.Exec
import HsqOverNand.Server.Compile
import HsqOverNand.Server.Columns
import HsqOverNand.Server.MultiChip
import HsqOverNand.Server.Subtract
import HsqOverNand.Server.Wear
import HsqOverNand.Spi.Bundle
import HsqOverNand.Lib.CallLog
import HsqOverNand.Lib.Greedy
import HsqOverNand.Server.Borrow
import HsqOverNand.Server.ExactlyOnce
import HsqOverNand.Server.Failures
import HsqOverNand.Server.Guard
import HsqOverNand.Server.Optimal
import HsqOverNand.Server.Replay
import HsqOverNand.Server.Tracker
import HsqOverNand.Spi.Program
import HsqOverNand.Qspi.Driver
import HsqOverNand.Qspi.Polling
import HsqOverNand.Qspi.Proof.Calls
import HsqOverNand.Qspi.Restore
import HsqOverNand.Spi.Transfer
import HsqOverNand.Lib.Digits
import HsqOverNand.Subleq.Bounds
import HsqOverNand.Subleq.Lockstep
import HsqOverNand.Subleq.RoundTrip
import HsqOverNand.Subleq.Upper
import HsqOverNand.Client.FlashClient
import HsqOverNand.Server.Backend
import HsqOverNand.System.Progress
import HsqOverNand.System.Server
import HsqOverNand.Qspi.Proof.Threads
import HsqOverNand.Qspi.Proof.Rig
import HsqOverNand.Lib.BitField
import HsqOverNand.Qspi.PioConfig
import HsqOverNand.Qspi.Proof.Rigs
