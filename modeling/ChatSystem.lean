import ChatSystem.Core.Bytes
import ChatSystem.Core.Words
import ChatSystem.Core.Scan
import ChatSystem.Core.Transition
import ChatSystem.Core.Reactive
import ChatSystem.Core.Framing
import ChatSystem.Core.Reassembly
import ChatSystem.Core.Channel
import ChatSystem.Core.Tasks
import ChatSystem.Core.Serial
import ChatSystem.Core.Budget
import ChatSystem.Core.Effort
import ChatSystem.Core.Locking
import ChatSystem.Core.SlotMap
import ChatSystem.Core.Simulation
import ChatSystem.Protocol.Message
import ChatSystem.Protocol.Codec
import ChatSystem.Protocol.Reencode
import ChatSystem.Protocol.Stream
import ChatSystem.Server.Entry
import ChatSystem.Server.History
import ChatSystem.Server.Replies
import ChatSystem.Server.Names
import ChatSystem.Server.Posts
import ChatSystem.Epoll.SendBuf
import ChatSystem.Epoll.Kernel
import ChatSystem.Epoll.State
import ChatSystem.Epoll.Process
import ChatSystem.Epoll.Handlers
import ChatSystem.Epoll.Input
import ChatSystem.Epoll.Loop
import ChatSystem.Epoll.Framing
import ChatSystem.Epoll.Calls
import ChatSystem.Epoll.Names
import ChatSystem.Epoll.Output
import ChatSystem.Epoll.Slots
import ChatSystem.Epoll.Arming
import ChatSystem.Epoll.Batch
import ChatSystem.Epoll.Requests
import ChatSystem.Epoll.Delivery
import ChatSystem.Epoll.Relays
import ChatSystem.Thread.State
import ChatSystem.Thread.Program
import ChatSystem.Thread.Steps
import ChatSystem.Thread.Stages
import ChatSystem.Thread.Sessions
import ChatSystem.Thread.Names
import ChatSystem.Thread.Privacy
import ChatSystem.Thread.Locks
import ChatSystem.Core.Chunks
import ChatSystem.Core.Relay
import ChatSystem.Thread.Writers
import ChatSystem.Server.Verdicts
import ChatSystem.Thread.Frames
import ChatSystem.Thread.Verdicts
import ChatSystem.Discovery.Registry
import ChatSystem.Discovery.Server
import ChatSystem.Fork.State
import ChatSystem.Fork.Program
import ChatSystem.Fork.Steps
import ChatSystem.Fork.Links
import ChatSystem.Fork.Slots
import ChatSystem.Fork.Pipes
import ChatSystem.Fork.Traffic
import ChatSystem.Fork.Descriptors
import ChatSystem.Fork.Ends
import ChatSystem.Fork.Relays
import ChatSystem.Fork.Turns
import ChatSystem.Fork.Workload
import ChatSystem.Fork.Progress
import ChatSystem.Discovery.Login
import ChatSystem.Discovery.Credentials
import ChatSystem.Chat.Room
import ChatSystem.Chat.Tidy
import ChatSystem.Chat.Secrecy
import ChatSystem.Chat.Departures
import ChatSystem.Chat.Strangers
import ChatSystem.Chat.Agreement
import ChatSystem.Chat.Senders
import ChatSystem.Chat.Answers
import ChatSystem.Chat.Strings
import ChatSystem.Chat.Broadcasts
import ChatSystem.Server.HistoryReply
import ChatSystem.Core.Join
import ChatSystem.Server.UserList
import ChatSystem.Chat.Tables
import ChatSystem.Chat.Listing
import ChatSystem.Client.Input
import ChatSystem.Client.Lines
import ChatSystem.Client.Addressing
import ChatSystem.Epoll.Freed
import ChatSystem.Benchmark.Pack
import ChatSystem.Benchmark.Latency
import ChatSystem.Core.Calendar
import ChatSystem.Server.LocalTime
import ChatSystem.Chat.Timestamps
import ChatSystem.Core.Decimal
import ChatSystem.Server.Log
import ChatSystem.Chat.Logs
import ChatSystem.Core.Fifo
import ChatSystem.Epoll.Fifo
import ChatSystem.Chat.Reading
import ChatSystem.Chat.Receivers
import ChatSystem.Epoll.Refinement
import ChatSystem.Epoll.Streams
import ChatSystem.Thread.Alone
import ChatSystem.Thread.Refinement
import ChatSystem.Thread.Shifts
import ChatSystem.Fork.Alone
import ChatSystem.Fork.Refinement
import ChatSystem.Client.Terminal
import ChatSystem.Client.Conversation
import ChatSystem.Thread.Progress
import ChatSystem.Epoll.Drain
import ChatSystem.Core.Linear
import ChatSystem.Discovery.Conversations
import ChatSystem.Chat.Journal
import ChatSystem.Benchmark.Receive
import ChatSystem.Chat.Hall
import ChatSystem.Chat.Seating
import ChatSystem.Chat.Admission
import ChatSystem.Discovery.Members
