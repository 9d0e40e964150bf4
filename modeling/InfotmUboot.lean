import InfotmUboot.Iuw
import InfotmUboot.Proofs.Grant
import InfotmUboot.Proofs.Fill
import InfotmUboot.Proofs.ReadBack
import InfotmUboot.Proofs.Layout
import InfotmUboot.Proofs.Items
import InfotmUboot.Proofs.Extra
import InfotmUboot.Proofs.Scan
import InfotmUboot.Proofs.YaffsConv
import InfotmUboot.Env
import InfotmUboot.Proofs.Env
import InfotmUboot.Proofs.PartConfig
import InfotmUboot.Proofs.Chain
import InfotmUboot.Proofs.Block
import InfotmUboot.Proofs.BlockBase
import InfotmUboot.Proofs.EnvCrc
import InfotmUboot.Proofs.LmbAlloc
import InfotmUboot.Proofs.LmbFree
import InfotmUboot.Proofs.EnvNandRun
import InfotmUboot.Proofs.EraseOpts
import InfotmUboot.Proofs.ErasedCrc
import InfotmUboot.EnvFlash
import InfotmUboot.Proofs.EnvFlash
import InfotmUboot.Proofs.EnvFlashRun
import InfotmUboot.Lib.KeySort
import InfotmUboot.Text
import InfotmUboot.Fastboot
import InfotmUboot.Proofs.Fastboot
import InfotmUboot.Net
import InfotmUboot.Proofs.Net
import InfotmUboot.Tftp
import InfotmUboot.Proofs.Tftp
import InfotmUboot.Proofs.TftpRun
import InfotmUboot.Mtdparts
import InfotmUboot.Proofs.Mtdparts
import InfotmUboot.Proofs.MtdpartsEdit
import InfotmUboot.Proofs.MtdpartsRun
import InfotmUboot.Proofs.MtdpartsText
import InfotmUboot.Lmb
import InfotmUboot.Proofs.LmbRun
import InfotmUboot.EnvNand
import InfotmUboot.FwEnv
import InfotmUboot.Extra
import InfotmUboot.NandUtil
import InfotmUboot.Proofs.FwEnv
import InfotmUboot.Proofs.FwEnvRun
import InfotmUboot.Proofs.SparseSource
import InfotmUboot.Proofs.NandUtil
import InfotmUboot.Proofs.Spl
import InfotmUboot.Proofs.Srec
import InfotmUboot.PartDos
import InfotmUboot.Proofs.PartDos
import InfotmUboot.Kermit
import InfotmUboot.Proofs.Kermit
import InfotmUboot.Retry
import InfotmUboot.Proofs.Retry
import InfotmUboot.Mmc
import InfotmUboot.Proofs.Mmc
import InfotmUboot.SpiFlash
import InfotmUboot.Proofs.SpiFlash
import InfotmUboot.Proofs.FlashBurn
import InfotmUboot.Proofs.NandErase
import InfotmUboot.Proofs.Eeprom
import InfotmUboot.Bootl
import InfotmUboot.Proofs.Bootl
import InfotmUboot.FastbootBoot
import InfotmUboot.Proofs.FastbootBoot
import InfotmUboot.Proofs.ReadRetry
import InfotmUboot.Proofs.BadMark
import InfotmUboot.VsRead
import InfotmUboot.Proofs.VsRead
import InfotmUboot.Dhcp
import InfotmUboot.Proofs.Dhcp
import InfotmUboot.Proofs.GetenvR
import InfotmUboot.Lib.Ring
import InfotmUboot.Circbuf
import InfotmUboot.Proofs.Circbuf
import InfotmUboot.Proofs.CmdFlash
import InfotmUboot.Lib.Words
import InfotmUboot.Command
import InfotmUboot.Proofs.ParseLine
import InfotmUboot.Proofs.Macros
import InfotmUboot.Proofs.Memsize
import InfotmUboot.Lib.Trace
import InfotmUboot.Proofs.IuwRw
import InfotmUboot.Lib.Cstr
import InfotmUboot.Cread
import InfotmUboot.Lib.Splice
import InfotmUboot.Proofs.Cread
import InfotmUboot.Proofs.SrecDecode
import InfotmUboot.Proofs.EnvNandBounds
import InfotmUboot.Proofs.MtdpartsBuf
import InfotmUboot.NorFlash
import InfotmUboot.Proofs.NorFlash
import InfotmUboot.Bootm
import InfotmUboot.Proofs.Bootm
import InfotmUboot.Proofs.YaffsLength
import InfotmUboot.Proofs.History
import InfotmUboot.DosPrint
import InfotmUboot.Lib.Links
import InfotmUboot.Proofs.DosLinks
import InfotmUboot.Gpt
import InfotmUboot.Proofs.Gpt
import InfotmUboot.Proofs.Handshake
import InfotmUboot.Cdp
import InfotmUboot.Lib.Walk
import InfotmUboot.Proofs.Cdp
import InfotmUboot.Lib.Loop
import InfotmUboot.BootpScan
import InfotmUboot.Proofs.BootpScan
import InfotmUboot.Fat
import InfotmUboot.Proofs.FatEntry
import InfotmUboot.NetSend
import InfotmUboot.Lib.Past
import InfotmUboot.Proofs.ArpWait
import InfotmUboot.Proofs.NetSend
import InfotmUboot.Update
import InfotmUboot.Proofs.Update
import InfotmUboot.EraseOpts
import InfotmUboot.Proofs.EraseOpts
import InfotmUboot.FwSetenv
import InfotmUboot.Proofs.FwSetenv
import InfotmUboot.Proofs.Hwconfig
import InfotmUboot.Proofs.Complete
import InfotmUboot.Lib.Keyed
import InfotmUboot.Proofs.Hwconfig
import InfotmUboot.Proofs.Complete
import InfotmUboot.Date
import InfotmUboot.Descriptor
import InfotmUboot.Lib.Calendar
import InfotmUboot.Lib.Noted
import InfotmUboot.Lib.Sections
import InfotmUboot.Logbuff
import InfotmUboot.Mkimage
import InfotmUboot.Proofs.Date
import InfotmUboot.Proofs.Descriptor
import InfotmUboot.Proofs.ItemsAgree
import InfotmUboot.Proofs.Logbuff
import InfotmUboot.Proofs.Mkimage
import InfotmUboot.Proofs.SparseTrace
import InfotmUboot.Proofs.TestCmd
import InfotmUboot.BootKernel
import InfotmUboot.Ecc
import InfotmUboot.Lib.Bits
import InfotmUboot.Lib.Lfsr
import InfotmUboot.NandPage
import InfotmUboot.Proofs.BootKernel
import InfotmUboot.Proofs.Ecc
import InfotmUboot.Proofs.NandPage
