import Udpcast.Lib.Loop
import Udpcast.Lib.Cauchy
import Udpcast.Lib.GaussJordan
import Udpcast.Fec.Gf
import Udpcast.Fec.Tables
import Udpcast.Fec.Blocks
import Udpcast.Lib.System
import Udpcast.Lib.ModCounter
import Udpcast.Lib.Ring
import Udpcast.Fec.Codec
import Udpcast.Queue.Threads
import Udpcast.Queue.Calls
import Udpcast.Sender.Cuts
import Udpcast.Sender.Stopping
import Udpcast.Sender.Ready
import Udpcast.Receiver.Window
import Udpcast.Session.Rounds
import Udpcast.Receiver.Handover
import Udpcast.Receiver.Pointer
import Udpcast.Queue.Overflow
import Udpcast.Queue.Sequences
import Udpcast.Queue.Wakeup
import Udpcast.Sender.ReturnChannel
import Udpcast.Sender.Retransmission
import Udpcast.Receiver.Pool
import Udpcast.Receiver.Conservation
import Udpcast.Receiver.ReadySet
import Udpcast.Receiver.OldSlices
import Udpcast.Receiver.Passed
import Udpcast.Receiver.Scans
import Udpcast.Receiver.Behind
import Udpcast.Receiver.Memory
import Udpcast.Receiver.InOrder
import Udpcast.Receiver.Landing
import Udpcast.Receiver.Decoding
import Udpcast.Receiver.Seeking
import Udpcast.Receiver.Storing
import Udpcast.Receiver.Contents
import Udpcast.Receiver.Integrity
import Udpcast.Receiver.Arrival
import Udpcast.Receiver.Delivery
import Udpcast.Receiver.Aborts
import Udpcast.Receiver.InTime
import Udpcast.Receiver.Acknowledging
import Udpcast.Sender.Messages
import Udpcast.Session.Transfer
import Udpcast.Sender.Votes
import Udpcast.Session.Group
import Udpcast.Sender.SliceSize
import Udpcast.Sender.SlotCycle
import Udpcast.Sender.Startup
import Udpcast.Negotiate.Daemon
import Udpcast.Negotiate.Participants
import Udpcast.Negotiate.StartRequests
import Udpcast.Fec.Buffers
import Udpcast.Fec.PivotBounds
import Udpcast.Rate.Limit
