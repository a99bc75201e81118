import Ucb.Argparse.Argparse
import Ucb.Argparse.Declared
import Ucb.Argparse.Defaults
import Ucb.Argparse.Destinations
import Ucb.Argparse.Emits
import Ucb.Argparse.Events
import Ucb.Argparse.HelpSafety
import Ucb.Argparse.HelpText
import Ucb.Argparse.Integers
import Ucb.Argparse.Interpolation
import Ucb.Argparse.ParseRight
import Ucb.Argparse.Spellings
import Ucb.Argparse.Wrapping
import Ucb.Container.ByteBuffer
import Ucb.Container.ByteBufferRefinement
import Ucb.Container.CloneCustody
import Ucb.Container.CloneFailures
import Ucb.Container.GenericArray
import Ucb.Container.GenericRefinement
import Ucb.Container.GenericRefusals
import Ucb.Container.GenericVector
import Ucb.Container.GrowthArithmetic
import Ucb.Container.Pqueue
import Ucb.Container.PqueueRefinement
import Ucb.Container.PqueueRefusals
import Ucb.Container.Refusals
import Ucb.Container.SharedPqueue
import Ucb.Container.SortedVector
import Ucb.Container.Storage
import Ucb.Container.Vector
import Ucb.Container.VectorRefinement
import Ucb.Container.VectorRefusals
import Ucb.Env.Aliasing
import Ucb.Env.Envmap
import Ucb.Env.Envp
import Ucb.File.HandleCustody
import Ucb.File.Transfer
import Ucb.File.TransferBuffer
import Ucb.File.TransferCopy
import Ucb.File.TransferExact
import Ucb.Fs.Canon
import Ucb.Fs.Children
import Ucb.Fs.CopyDir
import Ucb.Fs.CopyFile
import Ucb.Fs.CopyTree
import Ucb.Fs.Disk
import Ucb.Fs.Effects
import Ucb.Fs.Frames
import Ucb.Fs.Fs
import Ucb.Fs.Guards
import Ucb.Fs.MakeDirs
import Ucb.Fs.MakePath
import Ucb.Fs.MkdirP
import Ucb.Fs.Move
import Ucb.Fs.Names
import Ucb.Fs.Overwrite
import Ucb.Fs.Platform
import Ucb.Fs.RemoveTree
import Ucb.Fs.Rules
import Ucb.Memdbg.Calls
import Ucb.Memdbg.Counters
import Ucb.Memdbg.Effects
import Ucb.Memdbg.FreeIndex
import Ucb.Memdbg.FreeLog
import Ucb.Memdbg.FreeRetention
import Ucb.Memdbg.FreeTable
import Ucb.Memdbg.Ledger
import Ucb.Memdbg.Lists
import Ucb.Memdbg.Nesting
import Ucb.Memdbg.Peaks
import Ucb.Memdbg.Tracker
import Ucb.Path.Ancestors
import Ucb.Path.Cache
import Ucb.Path.Coherent
import Ucb.Path.Filename
import Ucb.Path.Inside
import Ucb.Path.Join
import Ucb.Path.NormalForm
import Ucb.Path.Operations
import Ucb.Path.Parts
import Ucb.Path.Path
import Ucb.Path.Restyle
import Ucb.Path.RoundTrip
import Ucb.Process.Capture
import Ucb.Process.CommandLine
import Ucb.Process.CommandLineReading
import Ucb.Process.CommandLineRoundTrip
import Ucb.Process.Custody
import Ucb.Process.Effects
import Ucb.Process.Handles
import Ucb.Process.Lifetime
import Ucb.Process.Progress
import Ucb.Process.Redirect
import Ucb.Process.Streams
import Ucb.Str.Comparison
import Ucb.Str.Content
import Ucb.Str.Exact
import Ucb.Str.Invariant
import Ucb.Str.Mutation
import Ucb.Str.Refinement
import Ucb.Str.Refusals
import Ucb.Str.Run
import Ucb.Str.Search
import Ucb.Str.Str
import Ucb.Str.Substring
import Ucb.Threads.Accounting
import Ucb.Threads.Effects
import Ucb.Threads.Order
import Ucb.Threads.Runs
import Ucb.Threads.TaskStatus
import Ucb.Threads.ThreadObject
import Ucb.Threads.ThreadSafety
import Ucb.Threads.Threadpool
import Ucb.Threads.Wakeups
import Ucb.Unicode.CaseFold
import Ucb.Unicode.CaseMap
import Ucb.Unicode.CaseReference
import Ucb.Unicode.Clusters
import Ucb.Unicode.CrossForms
import Ucb.Unicode.Encode
import Ucb.Unicode.EncodeChunks
import Ucb.Unicode.EncodeInPlace
import Ucb.Unicode.FormLaws
import Ucb.Unicode.Grapheme
import Ucb.Unicode.GraphemeRules
import Ucb.Unicode.GraphemeScan
import Ucb.Unicode.GraphemeStep
import Ucb.Unicode.Hangul
import Ucb.Unicode.NormCompose
import Ucb.Unicode.NormDecompose
import Ucb.Unicode.Normalize
import Ucb.Unicode.NormalizeFull
import Ucb.Unicode.PropGenerator
import Ucb.Unicode.PropTable
import Ucb.Unicode.Props
import Ucb.Unicode.QuickCheck
import Ucb.Unicode.QuickPath
import Ucb.Unicode.StageTables
import Ucb.Unicode.UcParser
import Ucb.Unicode.Ucd
import Ucb.Unicode.Utf8
import Ucb.Unicode.Utf8Code
import Ucb.Unicode.Utf8Validation
import Ucb.Units.Bytes
import Ucb.Units.BytesGrammar
