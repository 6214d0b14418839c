import EmbeddedCourse.Lib.Cells
import EmbeddedCourse.Lib.CString
import EmbeddedCourse.Lib.Run
import EmbeddedCourse.Lib.Owners
import EmbeddedCourse.Lib.Waiting
import EmbeddedCourse.Lib.Mailbox
import EmbeddedCourse.Lib.Monitor
import EmbeddedCourse.Lib.Script
import EmbeddedCourse.Lib.DLinked
import EmbeddedCourse.Lib.Framing
import EmbeddedCourse.Lib.Fields
import EmbeddedCourse.Lib.Keyed
import EmbeddedCourse.Lib.Ring
import EmbeddedCourse.Lib.Tokens
import EmbeddedCourse.Lib.Bubble
import EmbeddedCourse.Lib.OnesComplement
import EmbeddedCourse.Lib.Descriptors
import EmbeddedCourse.Lib.Spiral
import EmbeddedCourse.Lib.Occurrences
import EmbeddedCourse.Lib.OpenFile
import EmbeddedCourse.Lib.InputLoop
import EmbeddedCourse.Lib.Streams
import EmbeddedCourse.Chat.Lines
import EmbeddedCourse.Chat.Roster
import EmbeddedCourse.QueueChat.Server
import EmbeddedCourse.QueueChat.Client
import EmbeddedCourse.QueueChat.System
import EmbeddedCourse.QueueChat.Room
import EmbeddedCourse.QueueChat.Traffic
import EmbeddedCourse.QueueChat.Discipline
import EmbeddedCourse.QueueChat.Overrun
import EmbeddedCourse.QueueChat.Indices
import EmbeddedCourse.QueueChat.Agreement
import EmbeddedCourse.QueueChat.Delivery
import EmbeddedCourse.QueueChat.Replay
import EmbeddedCourse.QueueChat.Unruly
import EmbeddedCourse.QueueChat.Headcount
import EmbeddedCourse.QueueChat.Refusal
import EmbeddedCourse.QueueChat.Leftovers
import EmbeddedCourse.SharedChat.Server
import EmbeddedCourse.Chat.Formatting
import EmbeddedCourse.SharedChat.Client
import EmbeddedCourse.SharedChat.System
import EmbeddedCourse.SharedChat.Scripts
import EmbeddedCourse.SharedChat.Locks
import EmbeddedCourse.SharedChat.Inbox
import EmbeddedCourse.SharedChat.Permits
import EmbeddedCourse.SharedChat.Steady
import EmbeddedCourse.SharedChat.Broadcast
import EmbeddedCourse.Directory.Input
import EmbeddedCourse.Directory.Records
import EmbeddedCourse.Directory.Table
import EmbeddedCourse.Directory.TableSlots
import EmbeddedCourse.Directory.TableCompaction
import EmbeddedCourse.Directory.TableRefines
import EmbeddedCourse.Directory.TableNames
import EmbeddedCourse.Directory.TableOccupancy
import EmbeddedCourse.Directory.TableBounds
import EmbeddedCourse.Directory.Chain
import EmbeddedCourse.Directory.ChainRefines
import EmbeddedCourse.Directory.ChainMenu
import EmbeddedCourse.Directory.ChainCapacity
import EmbeddedCourse.Directory.Agreement
import EmbeddedCourse.Directory.Scanning
import EmbeddedCourse.Directory.Menu
import EmbeddedCourse.Taxi.Server
import EmbeddedCourse.Taxi.HandOver
import EmbeddedCourse.Taxi.System
import EmbeddedCourse.Taxi.Accounts
import EmbeddedCourse.Taxi.Jobs
import EmbeddedCourse.Taxi.Fleet
import EmbeddedCourse.Taxi.Rest
import EmbeddedCourse.Taxi.Commands
import EmbeddedCourse.Taxi.Loop
import EmbeddedCourse.Echo.Server
import EmbeddedCourse.Echo.Client
import EmbeddedCourse.Echo.Clients
import EmbeddedCourse.Echo.Numbers
import EmbeddedCourse.Echo.RoundTrip
import EmbeddedCourse.Echo.Flight
import EmbeddedCourse.Echo.System
import EmbeddedCourse.Echo.Conversation
import EmbeddedCourse.Echo.Session
import EmbeddedCourse.Echo.Malformed
import EmbeddedCourse.Echo.ReplyHeader
import EmbeddedCourse.Echo.Capacity
import EmbeddedCourse.Taxi.Capacity
import EmbeddedCourse.Sockets.Connections
import EmbeddedCourse.Sockets.Listening
import EmbeddedCourse.Sockets.ListeningSteps
import EmbeddedCourse.Sockets.ListeningRuns
import EmbeddedCourse.Sockets.Multiplexing
import EmbeddedCourse.Sockets.ProducerConsumer
import EmbeddedCourse.Sockets.Handled
import EmbeddedCourse.Sockets.Statements
import EmbeddedCourse.Sockets.Wakeups
import EmbeddedCourse.Sockets.PullThreads
import EmbeddedCourse.Sockets.HandOff
import EmbeddedCourse.Sockets.Turns
import EmbeddedCourse.Sockets.PoolStatements
import EmbeddedCourse.Sockets.PoolWakeups
import EmbeddedCourse.Sockets.Checksum
import EmbeddedCourse.Sockets.RawClient
import EmbeddedCourse.Threads.Store
import EmbeddedCourse.Threads.Visits
import EmbeddedCourse.MidnightCommander.Path
import EmbeddedCourse.MidnightCommander.Catalog
import EmbeddedCourse.MidnightCommander.Sorting
import EmbeddedCourse.MidnightCommander.Panel
import EmbeddedCourse.MidnightCommander.Entering
import EmbeddedCourse.MidnightCommander.Keys
import EmbeddedCourse.MidnightCommander.Browser
import EmbeddedCourse.Shells.Line
import EmbeddedCourse.Shells.Bash
import EmbeddedCourse.Shells.Pipes
import EmbeddedCourse.Shells.Parsing
import EmbeddedCourse.Shells.Counting
import EmbeddedCourse.Shells.EndOfInput
import EmbeddedCourse.Shells.Wiring
import EmbeddedCourse.Shells.Pipeline
import EmbeddedCourse.HomeWork.Snail
import EmbeddedCourse.HomeWork.FindSubstring
import EmbeddedCourse.HomeWork.SwapArray
import EmbeddedCourse.HomeWork.RideFile
import EmbeddedCourse.Calculator.Plugins
import EmbeddedCourse.Calculator.Menu
import EmbeddedCourse.Echo.System
