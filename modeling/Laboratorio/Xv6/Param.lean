import Mathlib.Logic.Function.Basic

/-! # The constants of `param.h`, `fs.h`, `stat.h` and `memlayout.h` -/

namespace Laboratorio.Xv6

def nproc : Nat := 64

theorem nproc_pos : 0 < nproc := by decide

def maxOpBlocks : Nat := 10

def logSize : Nat := maxOpBlocks * 3

/-- A block as an array of words: `NINDIRECT`. -/
def nindirect : Nat := 128

def bsize : Nat := 4 * nindirect

abbrev Block := Fin (4 * nindirect) → UInt8

def ndirect : Nat := 12

/-- `MAXFILE`, in blocks. -/
def maxFile : Nat := ndirect + nindirect

/-- `NINODE`, the entries of the inode cache. -/
def ninode : Nat := 50

def ndev : Nat := 10

/-- `NFILE`, the entries of the file table. -/
def nfile : Nat := 100

/-- `NOFILE`, the descriptors of a process. -/
def nofile : Nat := 16

/-- `DIRSIZ`, the longest name in a directory. -/
def dirsiz : Nat := 14

/-- `NINODES` of `mkfs.c`, the size of the inode table. -/
def ninodes : Nat := 200

/-- `FSSIZE`, the blocks of the file system. -/
def fssize : Nat := 1000

def maxArg : Nat := 32

/-- `KERNBASE` of `memlayout.h` -/
def kernbase : Nat := 0x80000000

/-- `T_DIR`, `T_FILE` and `T_DEV`; an inode without a type is free. -/
inductive FileType
  | dir
  | file
  | dev
  deriving DecidableEq

/-- `nlog` of `mkfs.c`, the number of log blocks with the header. -/
def nlog : Nat := logSize

end Laboratorio.Xv6
