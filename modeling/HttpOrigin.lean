import HttpOrigin.ByteQueue.Line
import HttpOrigin.Main
import HttpOrigin.Origin
import HttpOrigin.Transport.Peer
import HttpOrigin.Proofs.Exchange
import HttpOrigin.Proofs.Splitting
import HttpOrigin.Proofs.Coherence
import HttpOrigin.Proofs.Conservation
import HttpOrigin.Proofs.Account
import HttpOrigin.Proofs.Replay
import HttpOrigin.Proofs.Schedule
import HttpOrigin.Proofs.PlainQueue
import HttpOrigin.Proofs.Tokens
import HttpOrigin.Proofs.Utf8
import HttpOrigin.Proofs.Grammar
import HttpOrigin.Proofs.Dispatch
import HttpOrigin.Proofs.Pipeline
import HttpOrigin.Proofs.Descriptors
import HttpOrigin.Proofs.Interest
import HttpOrigin.Proofs.FileCalls
import HttpOrigin.Proofs.Replies
import HttpOrigin.Proofs.Closing
import HttpOrigin.Proofs.Isolation
import HttpOrigin.Proofs.Polling
import HttpOrigin.Proofs.Receiving
import HttpOrigin.Proofs.Delivery
import HttpOrigin.Proofs.Pausing
import HttpOrigin.Proofs.Sending
import HttpOrigin.Proofs.LineReading
import HttpOrigin.Proofs.Memory
import HttpOrigin.Proofs.Awaiting
import HttpOrigin.Proofs.BodyFraming
import HttpOrigin.Proofs.Refusals
import HttpOrigin.Proofs.Progress
import HttpOrigin.Proofs.ErrorAnswers
import HttpOrigin.Proofs.Finding
import HttpOrigin.Proofs.FieldLines
import HttpOrigin.Proofs.HeadRequests
import HttpOrigin.Proofs.FieldLookups
