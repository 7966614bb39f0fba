import KernelGadgets.Lib.Machine
import KernelGadgets.Lib.Ledger
import KernelGadgets.IndexList.Table
import KernelGadgets.IndexList.Represents
import KernelGadgets.IndexList.Client
import KernelGadgets.IndexList.Ownership
import KernelGadgets.IndexList.Fifo
import KernelGadgets.IndexList.KeyedTable
import KernelGadgets.IndexList.TwoClients
import KernelGadgets.IndexList.SecondLink
import KernelGadgets.Cdev.Device
import KernelGadgets.Cdev.Disclosure
import KernelGadgets.Cdev.Handles
import KernelGadgets.Cdev.Mutex
import KernelGadgets.Hid.Driver
import KernelGadgets.Hid.Receive
import KernelGadgets.Hid.LoopBack
import KernelGadgets.Gadget.Bitmap
import KernelGadgets.Gadget.Bcd
import KernelGadgets.Lib.BitFlip
import KernelGadgets.Nand.Table
import KernelGadgets.Nand.Ecc
import KernelGadgets.Nand.Correct
import KernelGadgets.Lib.ListScheduling
import KernelGadgets.Team.MakeTeam
import KernelGadgets.Lib.CString
import KernelGadgets.Lib.Program
import KernelGadgets.DirList.Walk
import KernelGadgets.DirList.Loop
import KernelGadgets.DirList.Frame
import KernelGadgets.DirList.Release
import KernelGadgets.DirList.Complete
import KernelGadgets.Hid.Probe
import KernelGadgets.Hid.Framing
import KernelGadgets.Hid.Robust
import KernelGadgets.Hid.Parity
import KernelGadgets.Gadget.Itoa
import KernelGadgets.Hid.Reassembly
import KernelGadgets.IndexList.Bucket
import KernelGadgets.IndexList.Rollback
import KernelGadgets.Lib.Tokens
import KernelGadgets.Gadget.BitTool
import KernelGadgets.IndexList.Limits
import KernelGadgets.IndexList.Fields
import KernelGadgets.Lib.Memory
import KernelGadgets.Cdev.Array
import KernelGadgets.Debugfs.File
import KernelGadgets.Debugfs.Stream
import KernelGadgets.Debugfs.Faults
import KernelGadgets.DirList.Report
import KernelGadgets.Lib.ParityPairs
import KernelGadgets.Nand.Pairs
import KernelGadgets.Nand.Later
import KernelGadgets.Nand.Rows
import KernelGadgets.Nand.Prev
import KernelGadgets.Nand.Decode
import KernelGadgets.Nand.Generations
import KernelGadgets.Nand.Errors
import KernelGadgets.Lib.Loading
import KernelGadgets.Cdev.Setup
import KernelGadgets.Debugfs.Setup
import KernelGadgets.Hid.Open
import KernelGadgets.Nand.Attempts
import KernelGadgets.Hid.Session
import KernelGadgets.Hid.Overrun
import KernelGadgets.Hid.Answers
import KernelGadgets.Hid.Printing
import KernelGadgets.Hid.Main
