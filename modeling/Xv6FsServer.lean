import Xv6FsServer.Bio.Model
import Xv6FsServer.Bio.Proofs.Cache
import Xv6FsServer.Bio.Proofs.Invisible
import Xv6FsServer.Files.Model
import Xv6FsServer.Files.Proofs.Aliasing
import Xv6FsServer.Files.Proofs.Atomic
import Xv6FsServer.Files.Proofs.Claims
import Xv6FsServer.Files.Proofs.Effect
import Xv6FsServer.Files.Proofs.Pairing
import Xv6FsServer.Files.Proofs.Served
import Xv6FsServer.Files.Proofs.Sharing
import Xv6FsServer.Files.Proofs.Tables
import Xv6FsServer.Fs.Accounting
import Xv6FsServer.Fs.Content
import Xv6FsServer.Fs.Creation
import Xv6FsServer.Fs.Directory
import Xv6FsServer.Fs.File
import Xv6FsServer.Fs.Image
import Xv6FsServer.Fs.Layout
import Xv6FsServer.Fs.Mapping
import Xv6FsServer.Fs.Nodes
import Xv6FsServer.Fs.Ownership
import Xv6FsServer.Fs.Space
import Xv6FsServer.Grep.Lines
import Xv6FsServer.Grep.Matcher
import Xv6FsServer.Ipc.DiskRequest
import Xv6FsServer.Ipc.Message
import Xv6FsServer.Ipc.Model
import Xv6FsServer.Ipc.Proofs.Agreement
import Xv6FsServer.Ipc.Proofs.Authority
import Xv6FsServer.Ipc.Proofs.Books
import Xv6FsServer.Ipc.Proofs.Delivery
import Xv6FsServer.Ipc.Proofs.Effect
import Xv6FsServer.Ipc.Proofs.Expect
import Xv6FsServer.Ipc.Proofs.Family
import Xv6FsServer.Ipc.Proofs.Farewell
import Xv6FsServer.Ipc.Proofs.Lifetime
import Xv6FsServer.Ipc.Proofs.Mailbox
import Xv6FsServer.Ipc.Proofs.Patience
import Xv6FsServer.Ipc.Proofs.Recycling
import Xv6FsServer.Ipc.Proofs.Roles
import Xv6FsServer.Ipc.Proofs.Server
import Xv6FsServer.Ipc.Proofs.Wakeups
import Xv6FsServer.Ipc.Protocol
import Xv6FsServer.Kfs.Calls
import Xv6FsServer.Kfs.Model
import Xv6FsServer.Kfs.Proofs.Accounts
import Xv6FsServer.Kfs.Proofs.Balance
import Xv6FsServer.Kfs.Proofs.Discipline
import Xv6FsServer.Kfs.Proofs.Freeing
import Xv6FsServer.Kfs.Proofs.Inodes
import Xv6FsServer.Kfs.Proofs.Ledger
import Xv6FsServer.Kfs.Proofs.Lookup
import Xv6FsServer.Kfs.Proofs.References
import Xv6FsServer.Kfs.Proofs.Settling
import Xv6FsServer.Kfs.Proofs.Writing
import Xv6FsServer.Lib.Bytes
import Xv6FsServer.Lib.Ledger
import Xv6FsServer.Lib.Prog
import Xv6FsServer.Lib.Radix
import Xv6FsServer.Lib.Ring
import Xv6FsServer.Lib.Search
import Xv6FsServer.Lib.Tally
import Xv6FsServer.Lib.Trace
import Xv6FsServer.Lib.Words
import Xv6FsServer.Log.Model
import Xv6FsServer.Log.Proofs.Admission
import Xv6FsServer.Log.Proofs.Crash
import Xv6FsServer.Log.Proofs.DiskRequest
import Xv6FsServer.Log.Proofs.Effect
import Xv6FsServer.Log.Proofs.Inv
import Xv6FsServer.Log.Proofs.Step
import Xv6FsServer.Mkfs.Model
import Xv6FsServer.Mkfs.Proofs.Appending
import Xv6FsServer.Mkfs.Proofs.Image
import Xv6FsServer.Mkfs.Proofs.Making
import Xv6FsServer.Mkfs.Proofs.Readers
import Xv6FsServer.Mkfs.Proofs.Systems
import Xv6FsServer.Param
import Xv6FsServer.Pipes.Model
import Xv6FsServer.Pipes.Proofs.Fifo
import Xv6FsServer.Server.Model
import Xv6FsServer.Server.Proofs.Buffer
import Xv6FsServer.Server.Proofs.Cleanup
import Xv6FsServer.Server.Proofs.Creation
import Xv6FsServer.Server.Proofs.Descriptors
import Xv6FsServer.Server.Proofs.Directories
import Xv6FsServer.Server.Proofs.Entries
import Xv6FsServer.Server.Proofs.Inodes
import Xv6FsServer.Server.Proofs.Isolation
import Xv6FsServer.Server.Proofs.Linking
import Xv6FsServer.Server.Proofs.Opening
import Xv6FsServer.Server.Proofs.Paths
import Xv6FsServer.Server.Proofs.References
import Xv6FsServer.Server.Proofs.Resolution
import Xv6FsServer.Server.Proofs.Scans
import Xv6FsServer.Server.Proofs.Store
import Xv6FsServer.Server.Proofs.Table
import Xv6FsServer.Server.Proofs.Unbuffered
import Xv6FsServer.Server.Proofs.Volume
import Xv6FsServer.Server.Proofs.Walk
import Xv6FsServer.Server.Spec
import Xv6FsServer.Syscall.Model
import Xv6FsServer.Syscall.Proofs.Buffers
import Xv6FsServer.Vm.Model
import Xv6FsServer.Vm.Proofs.Calls
import Xv6FsServer.Vm.Proofs.Images
import Xv6FsServer.Vm.Proofs.Owners
import Xv6FsServer.Vm.Proofs.Spaces
import Xv6FsServer.Vm.Proofs.Tables
import Xv6FsServer.Vm.Proofs.Taking
