import WebSocket.Endpoint
import WebSocket.Connection
import WebSocket.Frame.Client
import WebSocket.Proofs.Mask
import WebSocket.Proofs.Channel.Unlimited
import WebSocket.Proofs.Channel.Conservation
import WebSocket.Proofs.Frame.Outcome
import WebSocket.Proofs.Frame.Resumption
import WebSocket.Proofs.Frame.Taking
import WebSocket.Proofs.Frame.Starvation
import WebSocket.Proofs.Frame.Wire
import WebSocket.Proofs.Frame.Headers
import WebSocket.Proofs.Frame.Grammar
import WebSocket.Proofs.Frame.Decoding
import WebSocket.Proofs.Frame.Rounds
import WebSocket.Proofs.Frame.Registers
import WebSocket.Proofs.Frame.Suspension
import WebSocket.Proofs.Frame.Settling
import WebSocket.Proofs.Frame.Rationing
import WebSocket.Proofs.ByteQueue
import WebSocket.Proofs.Ascii
import WebSocket.Proofs.Handshake.Outcome
import WebSocket.Proofs.Handshake.Request
import WebSocket.Proofs.Handshake.Chunks
import WebSocket.Proofs.Handshake.Response
import WebSocket.Proofs.Session.Outcome
import WebSocket.Proofs.Session.Chunks
import WebSocket.Proofs.Session.Log
import WebSocket.Proofs.Session.Stream
import WebSocket.Proofs.Session.Run
import WebSocket.Proofs.Session.Output
import WebSocket.Proofs.Session.Lifecycle
import WebSocket.Proofs.Connection.Agreement
import WebSocket.Proofs.Connection.Run
import WebSocket.Proofs.Connection.Chunks
import WebSocket.Proofs.Connection.Interleaving
import WebSocket.Proofs.Endpoint.Delivery
import WebSocket.Proofs.Endpoint.Run
import WebSocket.Proofs.Endpoint.Faults
import WebSocket.Proofs.Endpoint.Refinement
import WebSocket.Proofs.Endpoint.Reads
import WebSocket.Proofs.Endpoint.Segmentation
import WebSocket.Proofs.Endpoint.Interruptions
import WebSocket.Proofs.Positions
import WebSocket.Proofs.Frame.Safety
import WebSocket.Proofs.Connection.Safety
