import Fire3.ArmWrap.Symbols
import Fire3.Bingen.SecureImage
import Fire3.Board.Ota
import Fire3.Dfu.Returned
import Fire3.Dfu.ThorOverwritten
import Fire3.Env.ExportBounds
import Fire3.Env.PrefixMatch
import Fire3.Eth.RxRing
import Fire3.Eth.TxRing
import Fire3.Ext4.AllocationRuns
import Fire3.Ext4.SparseImage
import Fire3.Factory.SaveLoad
import Fire3.Fastboot.FlashBounds
import Fire3.Fastboot.MapSafety
import Fire3.Fastboot.SetEnvApplied
import Fire3.Fastboot.SparseFlash
import Fire3.Fastboot.SplitImage
import Fire3.Fdisk.Extents
import Fire3.Fdisk.Frame
import Fire3.Fdisk.Untrusted
import Fire3.Lmb.AllocBase
import Fire3.Net.Checksum
import Fire3.Net.DhcpLease
import Fire3.Net.ReassemblyRuns
import Fire3.Net.TftpDownload
import Fire3.Net.TftpOack
import Fire3.Recovery.MapEntries
import Fire3.Recovery.PartNumbers
import Fire3.Recovery.Reports
import Fire3.Usb.BootHandoff
import Fire3.Board.Gpio
import Fire3.Board.I2c
import Fire3.Board.Mac
import Fire3.Board.Pwm
import Fire3.Board.Tieoff
import Fire3.Cli.ReadLine
import Fire3.Cli.Separators
import Fire3.Clock.CoreRates
import Fire3.Clock.PeriRates
import Fire3.Clock.Timer
import Fire3.Env.Rejected
import Fire3.Ext4.ExtentLookup
import Fire3.Ext4.InodeTable
import Fire3.Ext4.ReadResult
import Fire3.Fat.Updates
import Fire3.Gpt.RoundTrip
import Fire3.Mmc.Erase
import Fire3.Mmc.WriteDma
import Fire3.Printf.ReadBack
